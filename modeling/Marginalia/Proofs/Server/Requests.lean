import Marginalia.Proofs.Server.Handling

/-
  This file proves how the requests of the server are numbered,
  and where the gloss that a hover shows comes from.

  Only lookups send requests.  Each request takes the next
  number, and a number is passed over only if its request cannot
  be sent.  Numbers are shown with 32 bits, so that no two
  requests have the same `id` unless there are very many between
  them.  In particular the answer to the request for a gloss is
  never mistaken for that to the request for a selection before
  it.

  Key definitions include:
    * `Turn.Unasked`, `Turn.Dispatched`
    * `Handler.number`
    * `Exchange.requests`, `Exchange.gloss?`
    * `Session.Numbered`
    * `Exchange.Glossed`
    * `Turn.Inquires`
  The main statements are:
    * `Session.hasGrowingIds_of_numbered`
    * `Turn.inquires_attempt`
    * `Turn.inquires_of_step`
-/

namespace Marginalia

------------------------------------------------------------
-- Turns Without Requests
------------------------------------------------------------

/- The event is a remark, or a frame that is no request. -/
def Event.isUnasked : Event → Bool
| .sent frame => !Exchange.isRequest frame
| .remarked _ => true
| .handled _ => false
| .answered _ => false

/- None of the frames of such events has a method. -/
theorem Session.method_of_mem_framesOf
    {news : List Event}
    {frame : Json}
    (hNews : ∀ event ∈ news, event.isUnasked = true)
    (hMember : frame ∈ framesOf news) :
    frame.get? "method" = none := by
  rcases List.mem_filterMap.mp hMember with ⟨event, hEvent, hFrame⟩
  have hIs := hNews event hEvent
  cases event <;>
    simp_all [Event.isUnasked, Event.frame?, Exchange.isRequest]

namespace Turn

/-
  The second turn comes from the first by remarks and by frames
  that are no requests.  Nothing that decides what may be asked
  changes.
-/
structure Unasked (before after : Turn) : Prop where
  waiting_eq : after.server.waiting = before.server.waiting
  nextRequest_eq :
    after.server.nextRequest = before.server.nextRequest
  asksSelection_eq :
    after.server.asksSelection = before.server.asksSelection
  asksGloss_eq : after.server.asksGloss = before.server.asksGloss
  news :
    ∃ news,
      after.events = news ++ before.events ∧
        ∀ event ∈ news, event.isUnasked = true

theorem unasked_refl
    (turn : Turn) :
    Unasked turn turn :=
  ⟨rfl, rfl, rfl, rfl, [], rfl, by simp⟩

theorem unasked_trans
    ⦃a b c : Turn⦄
    (hFirst : Unasked a b)
    (hSecond : Unasked b c) :
    Unasked a c := by
  rcases hFirst.news with ⟨first, hFirstEq, hFirstAll⟩
  rcases hSecond.news with ⟨second, hSecondEq, hSecondAll⟩
  refine
    ⟨hSecond.waiting_eq.trans hFirst.waiting_eq,
      hSecond.nextRequest_eq.trans hFirst.nextRequest_eq,
      hSecond.asksSelection_eq.trans hFirst.asksSelection_eq,
      hSecond.asksGloss_eq.trans hFirst.asksGloss_eq,
      second ++ first, ?_, ?_⟩
  · rw [hSecondEq, hFirstEq, List.append_assoc]
  · intro event hEvent
    rcases List.mem_append.mp hEvent with hNew | hOld
    · exact hSecondAll event hNew
    · exact hFirstAll event hOld

/- Quiet turns ask for nothing. -/
theorem unasked_of_quiet
    {before after : Turn}
    (hQuiet : Quiet before after) :
    Unasked before after := by
  rcases hQuiet.events_eq with ⟨remarks, hEvents⟩
  refine
    ⟨waiting_of_quiet hQuiet, nextRequest_of_quiet hQuiet,
      asksSelection_of_quiet hQuiet, asksGloss_of_quiet hQuiet,
      remarks.map Event.remarked, hEvents, ?_⟩
  intro event hEvent
  rcases List.mem_map.mp hEvent with ⟨r, _, hRemark⟩
  rw [← hRemark]
  rfl

/- A frame without a method asks for nothing. -/
theorem unasked_sent
    {frame : Json}
    (hFrame : frame.get? "method" = none)
    (turn : Turn) :
    Unasked turn (turn.note (.sent frame)) := by
  refine ⟨rfl, rfl, rfl, rfl, [.sent frame], rfl, ?_⟩
  simp [Event.isUnasked, Exchange.isRequest, hFrame]

/- A refusal asks for nothing. -/
theorem unasked_refuse
    (turn : Turn)
    (recipient : Recipient)
    (e : HandlerError) :
    Unasked turn (turn.refuse recipient e) := by
  unfold refuse
  split
  · exact unasked_refl turn
  · exact unasked_sent rfl turn

end Turn

namespace Handler

/- A handler that is quiet asks for nothing. -/
theorem unasked_of_quiet
    {α : Type}
    {h : Handler α}
    (hQuiet : Keeps Turn.Quiet h) :
    Keeps Turn.Unasked h :=
  fun turn => Turn.unasked_of_quiet (hQuiet turn)

/- Sending a frame without a method asks for nothing. -/
theorem unasked_send
    {frame : Json}
    (hFrame : frame.get? "method" = none) :
    Keeps Turn.Unasked (send frame) :=
  keeps_send Turn.unasked_refl (Turn.unasked_sent hFrame)

/- Only lookups ask, and only setting up changes what may be asked. -/
theorem unasked_dispatch
    {method : Bytes}
    (hSetUp : method ≠ utf8 "initialize")
    (hMethod : ∀ purpose : Purpose, method ≠ utf8 purpose.method)
    (files : Files)
    (recipient : Recipient)
    (params : Json) :
    Keeps Turn.Unasked (dispatch files recipient method params) := by
  have hHover : method ≠ utf8 "textDocument/hover" :=
    hMethod .hover
  have hReport : method ≠ utf8 "honyaku/commentAtPosition" :=
    hMethod .report
  have hUpdate :
      ∀ f : Server → Server,
        (∀ s : Server,
            (f s).waiting = s.waiting ∧
              (f s).nextRequest = s.nextRequest ∧
                (f s).asksSelection = s.asksSelection ∧
                  (f s).asksGloss = s.asksGloss) →
          Keeps Turn.Unasked (update f) := by
    intro f hSame turn
    rcases hSame turn.server with
      ⟨hWaiting, hNext, hSelection, hGloss⟩
    exact ⟨hWaiting, hNext, hSelection, hGloss, [], rfl, by simp⟩
  unfold dispatch
  rw [if_neg hSetUp, if_neg hHover, if_neg hReport]
  repeat' split
  · exact unasked_of_quiet (quiet_pure ())
  · exact unasked_of_quiet (quiet_opened params)
  · exact unasked_of_quiet (quiet_changed params)
  · exact unasked_of_quiet (quiet_closed params)
  · exact unasked_of_quiet (quiet_configure params)
  · refine
      keeps_bind Turn.unasked_trans
        (hUpdate _ (fun _ => ⟨rfl, rfl, rfl, rfl⟩)) ?_
    intro _
    exact unasked_send rfl
  · exact hUpdate _ (fun _ => ⟨rfl, rfl, rfl, rfl⟩)
  · unfold refuse
    split
    · exact unasked_of_quiet (quiet_pure ())
    · exact unasked_send rfl

/- The handling of such a message asks for nothing. -/
theorem unasked_handle
    {message : Json}
    (hSetUp : ¬message.HasMethod "initialize")
    (hMethod :
      ∀ purpose : Purpose, ¬message.HasMethod purpose.method)
    (files : Files) :
    Keeps Turn.Unasked (handle files message) := by
  cases hText : message.text? "method" with
  | some method =>
      have hHas :
          ∀ name : String,
            method = utf8 name → message.HasMethod name := by
        intro name hSame
        rw [Json.HasMethod, hText, hSame]
      rw [handle_of_method hText]
      exact
        unasked_dispatch (fun hSame => hSetUp (hHas _ hSame))
          (fun purpose hSame => hMethod purpose (hHas _ hSame)) _ _ _
  | none =>
      rcases handle_of_text?_eq_none hText files with
        ⟨r, hHandle⟩ | ⟨e, hHandle⟩
      · rw [hHandle]
        exact unasked_of_quiet (quiet_remark r)
      · rw [hHandle]
        exact unasked_of_quiet (quiet_throw e)

end Handler

/- The server is set up with the options of a client. -/
def Turn.readied (turn : Turn) (params : Json) : Turn :=
  let options := (params.object? "initializationOptions").getD .null
  turn.update (fun s =>
    { s with
      service :=
        SetupOptions.service s.service.registry.engine options
          s.defaults
      asksSelection :=
        (options.bool? "selectionContains").getD s.asksSelection
      asksGloss := (options.bool? "translate").getD s.asksGloss })

/- Setting the server up asks for nothing. -/
theorem Handler.unasked_setUp
    (recipient : Recipient)
    (params : Json)
    (turn : Turn) :
    Turn.Unasked (turn.readied params)
      ((setUp recipient params).runFrom turn).2 := by
  unfold setUp
  rw [runFrom_update_bind, runFrom_server_bind, runFrom_remark_bind]
  exact
    Turn.unasked_trans
      (Turn.unasked_of_quiet (Turn.quiet_remark _ _))
      (unasked_send rfl _)

/-
  What the handling of a message comes to.  A lookup may ask.  A
  handshake first settles what the client can do, and like all else
  it asks for nothing.
-/
inductive Turn.Dispatched
    (message : Json)
    (start : Turn)
    (outcome : Except HandlerError Unit × Turn) : Prop
| lookedUp
    {purpose : Purpose}
    (hMethod : message.HasMethod purpose.method)
    (hSetUp : ¬message.HasMethod "initialize")
    (hLookedUp :
      LookedUp (Recipient.ofMessage message) purpose 2 purpose.Shows
        start outcome)
| setUp
    (hMethod :
      ∀ purpose : Purpose, ¬message.HasMethod purpose.method)
    (hSetUp : message.HasMethod "initialize")
    (hUnasked : Unasked (start.readied message.params) outcome.2)
| unasked
    (hMethod :
      ∀ purpose : Purpose, ¬message.HasMethod purpose.method)
    (hSetUp : ¬message.HasMethod "initialize")
    (hUnasked : Unasked start outcome.2)

/- The handling of any message comes to this. -/
theorem Handler.dispatched_handle
    (files : Files)
    (message : Json)
    (start : Turn) :
    Turn.Dispatched message start
      ((handle files message).runFrom start) := by
  by_cases hLookUp :
      ∃ purpose : Purpose, message.HasMethod purpose.method
  · rcases hLookUp with ⟨purpose, hMethod⟩
    have hSetUp : ¬message.HasMethod "initialize" := by
      intro hSetUp
      have hSame := hMethod.symm.trans hSetUp
      cases purpose <;> exact absurd hSame (by decide)
    rw [handle_of_lookUp hMethod]
    exact .lookedUp hMethod hSetUp (looksUp_lookUp _ _ _ _ _)
  · have hMethod :
        ∀ purpose : Purpose, ¬message.HasMethod purpose.method :=
      fun purpose hHas => hLookUp ⟨purpose, hHas⟩
    by_cases hSetUp : message.HasMethod "initialize"
    · have hHandle :
          handle files message =
            setUp (Recipient.ofMessage message) message.params := by
        rw [handle_of_method hSetUp]
        rfl
      rw [hHandle]
      exact .setUp hMethod hSetUp (unasked_setUp _ _ _)
    · exact
        .unasked hMethod hSetUp
          (unasked_handle hSetUp hMethod files start)

------------------------------------------------------------
-- The Requests of an Exchange
------------------------------------------------------------

namespace Handler

/- How the number of a request is shown, which is with 32 bits. -/
def number (n : Nat) : Int :=
  Word.signed32 n

/- The next number is shown by counting on. -/
theorem number_succ
    (n : Nat) :
    Word.signed32 (number n + 1) = number (n + 1) := by
  rw [number, number, Word.signed32, Word.signed32, Word.signed32,
    Int.bmod_add_bmod, Int.natCast_succ]

/- Numbers that are shown alike are the same or far apart. -/
theorem eq_of_number
    {m n : Nat}
    (hSame : number m = number n)
    (hFirst : m < n + Word.size32)
    (hSecond : n < m + Word.size32) :
    m = n := by
  have hLast : (m : Int) % Word.size32 = (n : Int) % Word.size32 := by
    have hBoth := congrArg (· % (Word.size32 : Int)) hSame
    simpa only [number, Word.signed32, Int.bmod_emod] using hBoth
  unfold Word.size32 at hFirst hSecond hLast
  omega

/- Requests that show the same number show it alike. -/
theorem eq_of_requestId
    {m n : Int}
    (hSame : requestId m = requestId n) :
    m = n :=
  Decimal.ofInt_injective (List.append_cancel_left hSame)

/- Requests whose numbers are not far apart have different ids. -/
theorem eq_of_requestId_number
    {m n : Nat}
    (hSame : requestId (number m) = requestId (number n))
    (hFirst : m < n + Word.size32)
    (hSecond : n < m + Word.size32) :
    m = n :=
  eq_of_number (eq_of_requestId hSame) hFirst hSecond

end Handler

namespace Exchange

/- The requests that were sent, in order. -/
def requests (x : Exchange) : List Json :=
  (x.sent.filter isRequest).reverse

/- The `id` of the request for a gloss, if one was sent. -/
def glossRequest? (x : Exchange) : Option Bytes :=
  (x.sent.find? (fun frame =>
    frame.text? "method" == some Gloss.method)).bind
      (fun frame => frame.text? "id")

/-
  The gloss that was given: the one in the answer with the `id`
  of the request for it, if there is such an answer, it is no
  error, and its result is a gloss.
-/
def gloss? (x : Exchange) : Option Bytes := do
  let request ← x.glossRequest?
  let answer ←
    x.answers.find? (fun message =>
      message.text? "id" == some request)
  (Turn.resultOf? answer).bind Gloss.ofResult?

/- The requests bear the ids of so many numbers from the first on. -/
def HasAsked (x : Exchange) (first count : Nat) : Prop :=
  x.requests.map (fun frame => frame.get? "id") =
    (List.range' first count).map (fun n =>
      some (.text (Handler.requestId (Handler.number n))))

/- A message that is just taken up has asked for nothing. -/
theorem hasAsked_zero
    (message : Json)
    (first : Nat) :
    ({ message := message, answers := [], sent := [] } :
      Exchange).HasAsked first 0 :=
  rfl

/-
  What a hover may be answered with.  If a gloss was asked for,
  the comment is shown with the gloss that was given, if one was,
  unless something came instead that cannot be read.  If none was
  asked for, the hover may also fail otherwise, or find no
  comment.
-/
def IsShownBy (x : Exchange) (frames : List Json) : Prop :=
  (∃ block,
      frames =
        [ Handler.resultFrame (Recipient.ofMessage x.message)
            (Handler.hoverResult block x.gloss?) ]) ∨
    (∃ fault,
        frames =
          (Recipient.ofMessage x.message).refusal
            (.unreadable fault)) ∨
      x.glossRequest? = none ∧
        ((∃ e, frames = (Recipient.ofMessage x.message).refusal e) ∨
          frames =
            [ Handler.resultFrame (Recipient.ofMessage x.message)
                .null ])

/- A hover is answered so. -/
def Glossed (x : Exchange) : Prop :=
  x.message.HasMethod Purpose.hover.method → x.IsShownBy x.replies

/- The exchange with more frames sent. -/
def sending (x : Exchange) (frames : List Json) : Exchange :=
  { x with sent := frames ++ x.sent }

variable {x : Exchange}
variable {frames : List Json}

/- Replies are no requests. -/
theorem requests_sending
    (hFrames : ∀ frame ∈ frames, frame.get? "method" = none) :
    (x.sending frames).requests = x.requests := by
  have hNone : frames.filter isRequest = [] := by
    apply List.filter_eq_nil_iff.mpr
    intro frame hMember
    simp [isRequest, hFrames frame hMember]
  rw [requests, sending, List.filter_append, hNone]
  rfl

/- They ask for no gloss. -/
theorem glossRequest?_sending
    (hFrames : ∀ frame ∈ frames, frame.get? "method" = none) :
    (x.sending frames).glossRequest? = x.glossRequest? := by
  have hNone :
      frames.find? (fun frame =>
        frame.text? "method" == some Gloss.method) = none := by
    apply List.find?_eq_none.mpr
    intro frame hMember
    simp [Json.text?, hFrames frame hMember]
  rw [glossRequest?, sending, List.find?_append, hNone]
  rfl

/- So they change nothing about the gloss. -/
theorem gloss?_sending
    (hFrames : ∀ frame ∈ frames, frame.get? "method" = none) :
    (x.sending frames).gloss? = x.gloss? := by
  rw [gloss?, glossRequest?_sending hFrames]
  rfl

/- They are replies. -/
theorem replies_sending
    (hFrames : ∀ frame ∈ frames, frame.get? "method" = none) :
    (x.sending frames).replies = frames ++ x.replies := by
  have hAll :
      frames.filter (fun frame => !isRequest frame) = frames := by
    apply List.filter_eq_self.mpr
    intro frame hMember
    simp [isRequest, hFrames frame hMember]
  rw [replies, sending, List.filter_append, hAll]
  rfl

/- Without a request for it no gloss was given. -/
theorem gloss?_of_glossRequest?_eq_none
    (hNone : x.glossRequest? = none) :
    x.gloss? = none := by
  rw [gloss?, hNone]
  rfl

end Exchange

------------------------------------------------------------
-- Numbers
------------------------------------------------------------

namespace Session

/-
  The requests of the exchanges, the latest first, have the
  numbers from one on in order, up to the next number.  A number
  is passed over only for a message that is refused because its
  request is not UTF-8.
-/
inductive Numbered : Nat → List Exchange → Prop
| start : Numbered 1 []
| sent
    {first count : Nat}
    {x : Exchange}
    {earlier : List Exchange}
    (hEarlier : Numbered first earlier)
    (hAsked : x.HasAsked first count) :
    Numbered (first + count) (x :: earlier)
| passed
    {first count : Nat}
    {x : Exchange}
    {earlier : List Exchange}
    (hEarlier : Numbered first earlier)
    (hAsked : x.HasAsked first count)
    (hRefused :
      x.replies =
        (Recipient.ofMessage x.message).refusal .unprintable) :
    Numbered (first + count + 1) (x :: earlier)

/- The requests that were sent, in order. -/
def requests (turn : Turn) : List Json :=
  (frames turn).filter Exchange.isRequest

/-
  The requests bear the ids of numbers that grow, from one on and
  below the next number.
-/
def HasGrowingIds (next : Nat) (requests : List Json) : Prop :=
  ∃ numbers : List Nat,
    numbers.Pairwise (· < ·) ∧
      (∀ n ∈ numbers, 1 ≤ n ∧ n < next) ∧
        requests.map (fun frame => frame.get? "id") =
          numbers.map (fun n =>
            some (.text (Handler.requestId (Handler.number n))))

/- More requests, from the next number on. -/
theorem hasGrowingIds_append
    {first count next : Nat}
    {requests : List Json}
    {x : Exchange}
    (hIds : HasGrowingIds first requests)
    (hFirst : 1 ≤ first)
    (hAsked : x.HasAsked first count)
    (hNext : first + count ≤ next) :
    HasGrowingIds next (requests ++ x.requests) := by
  rcases hIds with ⟨numbers, hSorted, hBounds, hEq⟩
  refine ⟨numbers ++ List.range' first count, ?_, ?_, ?_⟩
  · apply List.pairwise_append.mpr
    refine ⟨hSorted, List.pairwise_lt_range', ?_⟩
    intro m hM n hN
    have hLow := (hBounds m hM).2
    have hHigh := List.mem_range'_1.mp hN
    omega
  · intro n hN
    rcases List.mem_append.mp hN with hOld | hNew
    · have hOldBounds := hBounds n hOld
      omega
    · have hNewBounds := List.mem_range'_1.mp hNew
      omega
  · rw [List.map_append, List.map_append, hEq, hAsked]

/- Unless there are very many requests, all ids are different. -/
theorem nodup_of_hasGrowingIds
    {next : Nat}
    {requests : List Json}
    (hIds : HasGrowingIds next requests)
    (hFew : next ≤ Word.size32) :
    (requests.map (fun frame => frame.get? "id")).Nodup := by
  rcases hIds with ⟨numbers, hSorted, hBounds, hEq⟩
  rw [hEq, List.Nodup, List.pairwise_map]
  apply hSorted.imp_of_mem
  intro m n hM hN hLess hSame
  have hLow := hBounds m hM
  have hHigh := hBounds n hN
  have hRequest :
      Handler.requestId (Handler.number m) =
        Handler.requestId (Handler.number n) := by
    simpa using hSame
  have hEqual :=
    Handler.eq_of_requestId_number hRequest (by omega) (by omega)
  omega

/- The requests of all exchanges have growing ids. -/
theorem hasGrowingIds_of_numbered
    {next : Nat}
    {exchanges : List Exchange}
    (hNumbered : Numbered next exchanges) :
    1 ≤ next ∧
      HasGrowingIds next
        (exchanges.reverse.flatMap Exchange.requests) := by
  have hSplit :
      ∀ (x : Exchange) (earlier : List Exchange),
        (x :: earlier).reverse.flatMap Exchange.requests =
          earlier.reverse.flatMap Exchange.requests ++ x.requests := by
    intro x earlier
    rw [List.reverse_cons, List.flatMap_append,
      List.flatMap_singleton]
  induction hNumbered with
  | start => exact ⟨Nat.le_refl 1, [], List.Pairwise.nil, by simp, rfl⟩
  | sent hEarlier hAsked ih =>
      refine ⟨by omega, ?_⟩
      rw [hSplit]
      exact
        hasGrowingIds_append ih.2 ih.1 hAsked (Nat.le_refl _)
  | passed hEarlier hAsked hRefused ih =>
      refine ⟨by omega, ?_⟩
      rw [hSplit]
      exact
        hasGrowingIds_append ih.2 ih.1 hAsked (Nat.le_succ _)

end Session

------------------------------------------------------------
-- What Holds Between Steps
------------------------------------------------------------

/- The exchanges account for all numbers and for all glosses. -/
def Session.Accounted
    (next : Nat)
    (exchanges : List Exchange) : Prop :=
  Numbered next exchanges ∧ ∀ x ∈ exchanges, x.Glossed

namespace Exchange

/-
  No gloss was asked for yet, and all answers are to requests
  with some of so many numbers from the first on.
-/
def IsUnglossed (x : Exchange) (first count : Nat) : Prop :=
  x.glossRequest? = none ∧
    ∀ message ∈ x.answers,
      ∃ n, (first ≤ n ∧ n < first + count) ∧
        message.text? "id" =
          some (Handler.requestId (Handler.number n))

/-
  What is waited for is the answer to a request of the exchange.
  If that is a gloss, no answer to the request for it was taken,
  and the comment is UTF-8, since the request was sent.
-/
def Awaits (x : Exchange) (first count : Nat) : Waiting → Prop
| .selection request _ =>
    x.IsUnglossed first count ∧
      ∃ n, (first ≤ n ∧ n < first + count) ∧
        request = Handler.requestId (Handler.number n)
| .gloss request _ block =>
    x.glossRequest? = some request ∧
      (∀ message ∈ x.answers, message.text? "id" ≠ some request) ∧
        Utf8.isValid block.spelled = true

end Exchange

namespace Turn

/-
  All requests and glosses are accounted for.  While the server
  waits, those of the latest exchange are so far, and its message
  was not replied to.  The message can be printed, like all that
  arrive.  It does not ask more than twice.
-/
structure Inquires (turn : Turn) : Prop where
  accounted :
    turn.server.waiting = none →
      ∃ next,
        turn.server.nextRequest = Handler.number next ∧
          Session.Accounted next (Session.exchanges turn.events)
  pending :
    ∀ waiting ∈ turn.server.waiting,
      ∃ x earlier first count,
        Session.exchanges turn.events = x :: earlier ∧
          Session.Accounted first earlier ∧
            x.HasAsked first count ∧
              turn.server.nextRequest =
                  Handler.number (first + count) ∧
                count + waiting.rounds ≤ 3 ∧
                  x.replies = [] ∧
                    x.message.isPrintable = true ∧
                      AwaitedFor x.message waiting ∧
                        x.Awaits first count waiting

variable {files : Files}
variable {turn next : Turn}
variable {x : Exchange}
variable {earlier : List Exchange}
variable {first count : Nat}

/- A frame is one of the latest exchange. -/
theorem exchanges_sent
    (hExchanges : Session.exchanges turn.events = x :: earlier)
    (frame : Json) :
    Session.exchanges (turn.note (.sent frame)).events =
      x.sending [frame] :: earlier := by
  rw [note, Session.exchanges, hExchanges]
  rfl

/- So is a refusal. -/
theorem exchanges_refuse
    (hExchanges : Session.exchanges turn.events = x :: earlier)
    (recipient : Recipient)
    (e : HandlerError) :
    Session.exchanges (turn.refuse recipient e).events =
      x.sending (recipient.refusal e) :: earlier := by
  unfold refuse Recipient.refusal
  cases recipient.id? with
  | none => exact hExchanges
  | some id => exact exchanges_sent hExchanges _

/- A refusal has no method. -/
theorem method_of_mem_refusal
    {recipient : Recipient}
    {e : HandlerError}
    {frame : Json}
    (hMember : frame ∈ recipient.refusal e) :
    frame.get? "method" = none := by
  rcases List.mem_map.mp hMember with ⟨id, _, hFrame⟩
  rw [← hFrame]
  rfl

/-
  The latest exchange is closed by the reply to its message.  Its
  requests are accounted for, and one that could not be sent
  passes a number over.
-/
theorem inquires_of_closed
    {frames : List Json}
    (hExchanges :
      Session.exchanges next.events = x.sending frames :: earlier)
    (hEarlier : Session.Accounted first earlier)
    (hAsked : x.HasAsked first count)
    (hNone : x.replies = [])
    (hWaiting : next.server.waiting = none)
    (hFrames : ∀ frame ∈ frames, frame.get? "method" = none)
    (hNext :
      next.server.nextRequest = Handler.number (first + count) ∨
        next.server.nextRequest =
            Handler.number (first + count + 1) ∧
          frames =
            (Recipient.ofMessage x.message).refusal .unprintable)
    (hShown :
      x.message.HasMethod Purpose.hover.method →
        x.IsShownBy frames) :
    Inquires next := by
  have hReplies : (x.sending frames).replies = frames := by
    rw [Exchange.replies_sending hFrames, hNone, List.append_nil]
  have hSame : (x.sending frames).HasAsked first count := by
    rw [Exchange.HasAsked, Exchange.requests_sending hFrames]
    exact hAsked
  have hGlossed : (x.sending frames).Glossed := by
    intro hMethod
    rw [hReplies, Exchange.IsShownBy, Exchange.gloss?_sending hFrames,
      Exchange.glossRequest?_sending hFrames]
    exact hShown hMethod
  have hAll : ∀ y ∈ x.sending frames :: earlier, y.Glossed := by
    intro y hMember
    rcases List.mem_cons.mp hMember with hIs | hOld
    · rw [hIs]
      exact hGlossed
    · exact hEarlier.2 y hOld
  refine ⟨?_, ?_⟩
  · intro _
    rw [hExchanges]
    rcases hNext with hNumber | ⟨hNumber, hRefused⟩
    · exact ⟨_, hNumber, .sent hEarlier.1 hSame, hAll⟩
    · have hPassed := hReplies.trans hRefused
      exact
        ⟨_, hNumber, .passed hEarlier.1 hSame hPassed, hAll⟩
  · intro waiting hMember
    rw [hWaiting] at hMember
    cases hMember

/- A refusal closes it, too. -/
theorem inquires_refuse
    {e : HandlerError}
    (hExchanges : Session.exchanges turn.events = x :: earlier)
    (hEarlier : Session.Accounted first earlier)
    (hAsked : x.HasAsked first count)
    (hNone : x.replies = [])
    (hWaiting : turn.server.waiting = none)
    (hNext :
      turn.server.nextRequest = Handler.number (first + count) ∨
        turn.server.nextRequest =
            Handler.number (first + count + 1) ∧
          e = .unprintable)
    (hShown :
      x.message.HasMethod Purpose.hover.method →
        x.IsShownBy ((Recipient.ofMessage x.message).refusal e)) :
    Inquires (turn.refuse (Recipient.ofMessage x.message) e) := by
  have hServer :=
    server_refuse turn (Recipient.ofMessage x.message) e
  apply
    inquires_of_closed (exchanges_refuse hExchanges _ e) hEarlier
      hAsked hNone _ _ _ hShown
  · rw [hServer]
    exact hWaiting
  · intro frame hMember
    exact method_of_mem_refusal hMember
  · rw [hServer]
    rcases hNext with hNumber | ⟨hNumber, hError⟩
    · exact Or.inl hNumber
    · rw [hError]
      exact Or.inr ⟨hNumber, rfl⟩

/- One more request of the latest exchange. -/
theorem hasAsked_nextFrame
    (hAsked : x.HasAsked first count)
    (hNext :
      turn.server.nextRequest = Handler.number (first + count))
    (request : Request) :
    (x.sending [turn.nextFrame request]).HasAsked first
      (count + 1) := by
  have hRequests :
      (x.sending [turn.nextFrame request]).requests =
        x.requests ++ [turn.nextFrame request] := by
    have hIs :
        Exchange.isRequest (turn.nextFrame request) = true := rfl
    simp [Exchange.requests, Exchange.sending, hIs]
  have hId :
      (turn.nextFrame request).get? "id" =
        some
          (.text
            (Handler.requestId (Handler.number (first + count)))) := by
    rw [← hNext]
    rfl
  rw [Exchange.HasAsked, hRequests, List.map_append, hAsked,
    List.map_singleton, hId, List.range'_concat, List.map_append]
  simp

/- A request is no reply. -/
theorem replies_nextFrame
    (turn : Turn)
    (x : Exchange)
    (request : Request) :
    (x.sending [turn.nextFrame request]).replies = x.replies := by
  have hIs : Exchange.isRequest (turn.nextFrame request) = true := rfl
  simp [Exchange.replies, Exchange.sending, hIs]

/- The request for a gloss asks for a gloss. -/
theorem method_nextFrame_of_gloss
    {text target : Bytes}
    {request : Request}
    (hRequest : Gloss.request? text target = some request)
    (turn : Turn) :
    (turn.nextFrame request).text? "method" = some Gloss.method := by
  have hMethod : request.method = Gloss.method := by
    unfold Gloss.request? at hRequest
    split at hRequest
    · cases hRequest
    · rw [← Option.some.inj hRequest]
  rw [← hMethod]
  rfl

/- The text of a request for a gloss that is sent is UTF-8. -/
theorem isValid_of_nextFrame
    {text target : Bytes}
    {request : Request}
    (hRequest : Gloss.request? text target = some request)
    (hFrame : (turn.nextFrame request).isPrintable = true) :
    Utf8.isValid text = true := by
  have hMember :
      (turn.nextFrame request).get? "params" =
        some request.params := rfl
  have hParams : request.params.isPrintable = true :=
    Json.isPrintable_of_get? hFrame hMember
  have hText : request.params.get? "text" = some (.text text) := by
    unfold Gloss.request? at hRequest
    split at hRequest
    · cases hRequest
    · rw [← Option.some.inj hRequest]
      rfl
  exact Json.isPrintable_of_get? hParams hText

/- What was asked for last is what is awaited. -/
theorem awaits_of_asked
    {recipient : Recipient}
    {purpose : Purpose}
    {request : Request}
    {waiting : Waiting}
    (hUnglossed : x.IsUnglossed first count)
    (hNext :
      turn.server.nextRequest = Handler.number (first + count))
    (hFew : count ≤ 2)
    (hAsked : Asked recipient purpose turn request waiting)
    (hSent : (turn.nextFrame request).isPrintable = true) :
    (x.sending [turn.nextFrame request]).Awaits first (count + 1)
      waiting := by
  have hId :
      Handler.nextId turn =
        Handler.requestId (Handler.number (first + count)) := by
    rw [Handler.nextId, hNext]
  rcases hUnglossed with ⟨hNone, hAnswers⟩
  cases hAsked with
  | selection inquiry _ _ _ =>
      refine ⟨⟨hNone, ?_⟩, first + count, by omega, hId⟩
      intro message hMember
      rcases hAnswers message hMember with ⟨n, hRange, hAnswer⟩
      exact ⟨n, by omega, hAnswer⟩
  | gloss _ _ hRequest =>
      have hFrame := method_nextFrame_of_gloss hRequest turn
      refine ⟨?_, ?_, isValid_of_nextFrame hRequest hSent⟩
      · rw [Exchange.glossRequest?, Exchange.sending,
          List.singleton_append, List.find?_cons, hFrame]
        rfl
      · intro message hMember hSame
        rcases hAnswers message hMember with ⟨n, hRange, hAnswer⟩
        rw [hAnswer, hId] at hSame
        have hSize : Word.size32 = 4294967296 := rfl
        have hEq :=
          Handler.eq_of_requestId_number (Option.some.inj hSame)
            (by omega) (by omega)
        omega

/- A request takes the next number. -/
theorem nextRequest_counted
    {n : Nat}
    (hNext : turn.server.nextRequest = Handler.number n) :
    (Handler.counted turn).server.nextRequest =
      Handler.number (n + 1) := by
  have hOne :
      (Handler.counted turn).server.nextRequest =
        Word.signed32 (turn.server.nextRequest + 1) := rfl
  rw [hOne, hNext, Handler.number_succ]

/- A request is one of the latest exchange, which waits from then on. -/
theorem inquires_askingFor
    {rounds : Nat}
    {purpose : Purpose}
    {request : Request}
    {waiting : Waiting}
    (hExchanges : Session.exchanges turn.events = x :: earlier)
    (hEarlier : Session.Accounted first earlier)
    (hAsked : x.HasAsked first count)
    (hNext :
      turn.server.nextRequest = Handler.number (first + count))
    (hNone : x.replies = [])
    (hMessage : x.message.isPrintable = true)
    (hMethod : x.message.HasMethod purpose.method)
    (hUnglossed : x.IsUnglossed first count)
    (hAskedFor :
      Asked (Recipient.ofMessage x.message) purpose turn request
        waiting)
    (hBudget : count + rounds ≤ 2)
    (hRounds : waiting.rounds ≤ rounds)
    (hFrame : (turn.nextFrame request).isPrintable = true) :
    Inquires (turn.askingFor request waiting) := by
  have hSent :
      Session.exchanges (turn.askingFor request waiting).events =
        x.sending [turn.nextFrame request] :: earlier :=
    exchanges_sent hExchanges (turn.nextFrame request)
  refine ⟨?_, ?_⟩
  · intro hFalse
    cases hFalse
  · intro w hMember
    have hIs : waiting = w := Option.some.inj hMember
    rw [← hIs]
    refine
      ⟨_, earlier, first, count + 1, hSent, hEarlier,
        hasAsked_nextFrame hAsked hNext request, ?_, by omega, ?_,
        hMessage, awaitedFor_of_asked hMethod hAskedFor,
        awaits_of_asked hUnglossed hNext (by omega) hAskedFor hFrame⟩
    · exact nextRequest_counted hNext
    · rw [replies_nextFrame]
      exact hNone

/- A lookup for the message of the latest exchange is accounted for. -/
theorem inquires_attempt
    {purpose : Purpose}
    {rounds : Nat}
    {h : Handler Unit}
    (hExchanges : Session.exchanges turn.events = x :: earlier)
    (hEarlier : Session.Accounted first earlier)
    (hAsked : x.HasAsked first count)
    (hNext :
      turn.server.nextRequest = Handler.number (first + count))
    (hNone : x.replies = [])
    (hWaiting : turn.server.waiting = none)
    (hMessage : x.message.isPrintable = true)
    (hMethod : x.message.HasMethod purpose.method)
    (hUnglossed : x.IsUnglossed first count)
    (hBudget : count + rounds ≤ 2)
    (hLookedUp :
      LookedUp (Recipient.ofMessage x.message) purpose rounds
        purpose.Shows turn (h.runFrom turn)) :
    Inquires (turn.attempt (Recipient.ofMessage x.message) h) := by
  have hThen :
      ∀ {middle : Turn},
        Quiet turn middle →
          Session.exchanges middle.events = x :: earlier ∧
            middle.server.waiting = none ∧
              middle.server.nextRequest =
                Handler.number (first + count) := by
    intro middle hQuiet
    exact
      ⟨(exchanges_of_quiet hQuiet).trans hExchanges,
        (waiting_of_quiet hQuiet).trans hWaiting,
        (nextRequest_of_quiet hQuiet).trans hNext⟩
  have hRefused :
      ∀ e : HandlerError,
        x.IsShownBy ((Recipient.ofMessage x.message).refusal e) :=
    fun e => Or.inr (Or.inr ⟨hUnglossed.1, Or.inl ⟨e, rfl⟩⟩)
  unfold attempt
  cases hRun : h.runFrom turn with
  | mk outcome after =>
      rw [hRun] at hLookedUp
      cases hLookedUp with
      | @answered middle result hQuiet hResult =>
          rcases hThen hQuiet with ⟨hSame, hFree, hNumber⟩
          apply
            inquires_of_closed (exchanges_sent hSame _) hEarlier
              hAsked hNone hFree _ (Or.inl hNumber)
          · intro hHover
            have hPurpose :=
              Json.purpose_eq_of_hasMethod hMethod hHover
            rcases hResult hPurpose with hNull | ⟨block, hBlock⟩
            · rw [hNull]
              exact Or.inr (Or.inr ⟨hUnglossed.1, Or.inr rfl⟩)
            · left
              refine ⟨block, ?_⟩
              rw [hBlock,
                Exchange.gloss?_of_glossRequest?_eq_none hUnglossed.1]
          · intro frame hMember
            rw [List.mem_singleton.mp hMember]
            rfl
      | @failed middle e hQuiet =>
          rcases hThen hQuiet with ⟨hSame, hFree, hNumber⟩
          exact
            inquires_refuse hSame hEarlier hAsked hNone hFree
              (Or.inl hNumber) (fun _ => hRefused e)
      | @unsent middle request waiting hQuiet _ _ =>
          rcases hThen hQuiet with ⟨hSame, hFree, hNumber⟩
          have hCounted :
              Session.exchanges (Handler.counted middle).events =
                x :: earlier := hSame
          apply
            inquires_refuse hCounted hEarlier hAsked hNone hFree _
              (fun _ => hRefused .unprintable)
          exact Or.inr ⟨nextRequest_counted hNumber, rfl⟩
      | @asked middle request waiting hQuiet hAskedFor hRounds hFrame =>
          rcases hThen hQuiet with ⟨hSame, _, hNumber⟩
          exact
            inquires_askingFor hSame hEarlier hAsked hNumber hNone
              hMessage hMethod hUnglossed hAskedFor hBudget hRounds
              hFrame

------------------------------------------------------------
-- Going On
------------------------------------------------------------

/- A result that is given can be printed. -/
theorem isPrintable_of_resultOf?
    {message result : Json}
    (hMessage : message.isPrintable = true)
    (hResult : resultOf? message = some result) :
    result.isPrintable = true := by
  unfold resultOf? at hResult
  split at hResult
  · cases hResult
  · rw [← Option.some.inj hResult]
    cases hGet : message.get? "result" with
    | none => rfl
    | some given => exact Json.isPrintable_of_get? hMessage hGet

end Turn

/- A gloss that is given is UTF-8. -/
theorem Gloss.isValid_of_ofResult?
    {result : Json}
    {gloss : Bytes}
    (hResult : result.isPrintable = true)
    (hGloss : ofResult? result = some gloss) :
    Utf8.isValid gloss = true := by
  unfold ofResult? at hGloss
  split at hGloss
  · rw [← Option.some.inj hGloss]
    exact hResult
  · exact
      Json.isPrintable_of_get? hResult (Json.get?_of_text? hGloss)

namespace Handler

/- A comment that is UTF-8 can be shown with a gloss that is. -/
theorem isPrintable_hoverResult
    {block : CommentBlock}
    {gloss? : Option Bytes}
    (hSpelled : Utf8.isValid block.spelled = true)
    (hGloss : ∀ gloss ∈ gloss?, Utf8.isValid gloss = true) :
    (hoverResult block gloss?).isPrintable = true := by
  have hValue : Utf8.isValid (gloss?.getD failure) = true := by
    cases gloss? with
    | none => decide
    | some gloss => exact hGloss gloss rfl
  have hText : Utf8.isValid (hoverText block gloss?) = true := by
    unfold hoverText
    dsimp only
    split
    · rw [List.append_assoc]
      apply Utf8.isValid_append hSpelled
      exact Utf8.isValid_append (by decide) hValue
    · exact hValue
  have hContents :
      (Json.record
        [ ("kind", Json.ofString "plaintext"),
          ("value", .text (hoverText block gloss?)) ]).isPrintable =
        true := by
    apply Json.isPrintable_ofMembers
    simp only [List.map, Json.areMembersPrintable, Json.isPrintable,
      hText]
    rfl
  apply Json.isPrintable_ofMembers
  simp only [List.map, Json.areMembersPrintable, hContents,
    Range.isPrintable_toJson]
  rfl

/- A hover that waited for its gloss answers if it can. -/
theorem runFrom_proceed_gloss
    {recipient : Recipient}
    {block : CommentBlock}
    {result? : Option Json}
    (request : Bytes)
    (hFrame :
      (resultFrame recipient
        (hoverResult block
          (result?.bind Gloss.ofResult?))).isPrintable = true)
    (turn : Turn) :
    ∃ next,
      Turn.Quiet turn next ∧
        (proceed result? (.gloss request recipient block)).runFrom
            turn =
          (.ok (),
            next.note
              (.sent
                (resultFrame recipient
                  (hoverResult block
                    (result?.bind Gloss.ofResult?))))) := by
  unfold proceed
  cases glossRemark result? with
  | none =>
      exact
        ⟨turn, Turn.quiet_refl turn,
          runFrom_send_of_isPrintable hFrame turn⟩
  | some r =>
      exact
        ⟨_, Turn.quiet_remark turn r,
          runFrom_send_of_isPrintable hFrame _⟩

end Handler

namespace Exchange

/-
  The exchange is ready to go on with the result that was waited
  for: still no gloss was asked for, or the result is the gloss,
  and the comment can be shown with it.
-/
def IsReady
    (x : Exchange)
    (first count : Nat)
    (result? : Option Json) : Waiting → Prop
| .selection _ _ => x.IsUnglossed first count
| .gloss _ _ block =>
    x.gloss? = result?.bind Gloss.ofResult? ∧
      (Handler.hoverResult block x.gloss?).isPrintable = true

/- The answer that was waited for is taken. -/
theorem isReady_of_answer
    {x : Exchange}
    {first count : Nat}
    {waiting : Waiting}
    {message : Json}
    (hAwaits : x.Awaits first count waiting)
    (hMessage : message.isPrintable = true)
    (hId : message.text? "id" = some waiting.request) :
    ({ x with answers := message :: x.answers } : Exchange).IsReady
      first count (Turn.resultOf? message) waiting := by
  cases waiting with
  | selection request inquiry =>
      rcases hAwaits with ⟨⟨hNone, hAnswers⟩, n, hRange, hRequest⟩
      refine ⟨hNone, ?_⟩
      intro other hOther
      rcases List.mem_cons.mp hOther with hSame | hOld
      · rw [hSame]
        exact ⟨n, hRange, hId.trans (congrArg some hRequest)⟩
      · exact hAnswers other hOld
  | gloss request recipient block =>
      have hRequest :
          ({ x with answers := message :: x.answers } :
            Exchange).glossRequest? = some request := hAwaits.1
      have hFind :
          (message :: x.answers).find? (fun other =>
            other.text? "id" == some request) = some message := by
        rw [List.find?_cons, hId]
        simp [Waiting.request]
      have hGloss :
          ({ x with answers := message :: x.answers } :
            Exchange).gloss? =
              (Turn.resultOf? message).bind Gloss.ofResult? := by
        rw [gloss?, hRequest]
        simp only [Option.bind_eq_bind, Option.bind_some, hFind]
      refine ⟨hGloss, ?_⟩
      rw [hGloss]
      apply Handler.isPrintable_hoverResult hAwaits.2.2
      intro gloss hMember
      rcases Option.bind_eq_some_iff.mp hMember with
        ⟨result, hResult, hOf⟩
      exact
        Gloss.isValid_of_ofResult?
          (Turn.isPrintable_of_resultOf? hMessage hResult) hOf

/- There is no answer. -/
theorem isReady_of_giveUp
    {x : Exchange}
    {first count : Nat}
    {waiting : Waiting}
    (hAwaits : x.Awaits first count waiting) :
    x.IsReady first count none waiting := by
  cases waiting with
  | selection request inquiry => exact hAwaits.1
  | gloss request recipient block =>
      rcases hAwaits with ⟨hRequest, hAnswers, hSpelled⟩
      have hFind :
          x.answers.find? (fun other =>
            other.text? "id" == some request) = none := by
        apply List.find?_eq_none.mpr
        intro other hOther
        simpa using hAnswers other hOther
      have hGloss : x.gloss? = none := by
        rw [gloss?, hRequest]
        simp only [Option.bind_eq_bind, Option.bind_some, hFind]
        rfl
      refine ⟨hGloss, ?_⟩
      rw [hGloss]
      exact Handler.isPrintable_hoverResult hSpelled (by simp)

end Exchange

namespace Turn

variable {files : Files}
variable {turn next : Turn}
variable {x : Exchange}
variable {earlier : List Exchange}
variable {first count : Nat}

/- Going on with the latest exchange is accounted for. -/
theorem inquires_resume
    {waiting : Waiting}
    {result? : Option Json}
    (hExchanges : Session.exchanges turn.events = x :: earlier)
    (hEarlier : Session.Accounted first earlier)
    (hAsked : x.HasAsked first count)
    (hNext :
      turn.server.nextRequest = Handler.number (first + count))
    (hNone : x.replies = [])
    (hMessage : x.message.isPrintable = true)
    (hAwaited : AwaitedFor x.message waiting)
    (hBudget : count + waiting.rounds ≤ 3)
    (hReady : x.IsReady first count result? waiting) :
    Inquires
      (turn.attempt waiting.recipient
        (Handler.resume waiting result?)) := by
  unfold Handler.resume
  rw [attempt_update_bind]
  cases waiting with
  | selection request inquiry =>
      have hLooksUp :=
        Handler.looksUp_proceed result? (.selection request inquiry)
          turn.unwaiting
      have hRounds : (Waiting.selection request inquiry).rounds = 2 :=
        rfl
      rw [hAwaited.2] at hLooksUp ⊢
      exact
        inquires_attempt hExchanges hEarlier hAsked hNext hNone rfl
          hMessage hAwaited.1 hReady (by omega) hLooksUp
  | gloss request recipient block =>
      rcases hReady with ⟨hGloss, hResult⟩
      rw [hGloss] at hResult
      have hFrame :=
        Json.isPrintable_resultFrame hMessage hResult
      have hRecipient : recipient = Recipient.ofMessage x.message :=
        hAwaited.2
      rw [← hRecipient] at hFrame
      rcases
          Handler.runFrom_proceed_gloss request hFrame
            turn.unwaiting with
        ⟨middle, hQuiet, hRun⟩
      have hStart :
          Session.exchanges turn.unwaiting.events = x :: earlier :=
        hExchanges
      have hSame := (exchanges_of_quiet hQuiet).trans hStart
      have hSent :=
        exchanges_sent hSame
          (Handler.resultFrame recipient
            (Handler.hoverResult block
              (result?.bind Gloss.ofResult?)))
      change Inquires (turn.unwaiting.attempt recipient _)
      rw [attempt_of_ok hRun]
      apply inquires_of_closed hSent hEarlier hAsked hNone
      · exact waiting_of_quiet hQuiet
      · intro frame hMember
        rw [List.mem_singleton.mp hMember]
        rfl
      · exact Or.inl ((nextRequest_of_quiet hQuiet).trans hNext)
      · intro _
        left
        refine ⟨block, ?_⟩
        rw [hGloss, hRecipient]

/- An attempt asks for nothing if its handler does not. -/
theorem unasked_attempt
    {start : Turn}
    {h : Handler Unit}
    (hUnasked : Unasked start (h.runFrom turn).2)
    (recipient : Recipient) :
    Unasked start (turn.attempt recipient h) := by
  unfold attempt
  cases hRun : h.runFrom turn with
  | mk result after =>
      rw [hRun] at hUnasked
      cases result with
      | ok _ => exact hUnasked
      | error e =>
          exact
            unasked_trans hUnasked (unasked_refuse after recipient e)

/- A message that asks for no lookup sends no request. -/
theorem inquires_of_unasked
    {message : Json}
    {number : Nat}
    (hNext : turn.server.nextRequest = Handler.number number)
    (hAccounted :
      Session.Accounted number (Session.exchanges turn.events))
    (hWaiting : turn.server.waiting = none)
    (hMethod :
      ∀ purpose : Purpose, ¬message.HasMethod purpose.method)
    (hUnasked : Unasked (turn.note (.handled message)) next) :
    Inquires next := by
  rcases hUnasked.news with ⟨news, hNews, hAll⟩
  have hOutputs : ∀ event ∈ news, event.isOutput = true := by
    intro event hEvent
    have hIs := hAll event hEvent
    cases event <;> simp_all [Event.isUnasked, Event.isOutput]
  have hSent :=
    Session.exchanges_append (exchanges_handled turn message) news
      hOutputs
  rw [← hNews] at hSent
  refine
    inquires_of_closed hSent hAccounted
      (Exchange.hasAsked_zero message number) rfl
      (hUnasked.waiting_eq.trans hWaiting) ?_
      (Or.inl (hUnasked.nextRequest_eq.trans hNext)) ?_
  · intro frame hMember
    exact Session.method_of_mem_framesOf hAll hMember
  · intro hHover
    exact absurd hHover (hMethod .hover)

/- A message is taken up. -/
theorem inquires_takeUp
    {number : Nat}
    (hNext : turn.server.nextRequest = Handler.number number)
    (hAccounted :
      Session.Accounted number (Session.exchanges turn.events))
    (hWaiting : turn.server.waiting = none)
    (files : Files)
    {message : Json}
    (hMessage : message.isPrintable = true) :
    Inquires
      ((turn.note (.handled message)).attempt
        (Recipient.ofMessage message)
        (Handler.handle files message)) := by
  cases Handler.dispatched_handle files message
      (turn.note (.handled message)) with
  | lookedUp hMethod _ hLookedUp =>
      exact
        inquires_attempt (exchanges_handled turn message) hAccounted
          (Exchange.hasAsked_zero message number) hNext rfl hWaiting
          hMessage hMethod ⟨rfl, by simp⟩ (Nat.le_refl 2) hLookedUp
  | setUp hMethod _ hUnasked =>
      have hSame :
          (turn.readied message.params).server.nextRequest =
            Handler.number number :=
        hNext
      have hReadied :
          Session.Accounted number
            (Session.exchanges
              (turn.readied message.params).events) :=
        hAccounted
      exact
        inquires_of_unasked hSame hReadied hWaiting hMethod
          (unasked_attempt hUnasked _)
  | unasked hMethod _ hUnasked =>
      exact
        inquires_of_unasked hNext hAccounted hWaiting hMethod
          (unasked_attempt hUnasked _)

/- Every step accounts for its requests and glosses. -/
theorem inquires_of_step
    {arrived : Incoming → Prop}
    (hPrintable :
      ∀ message,
        arrived (.message message) → message.isPrintable = true)
    (hInquires : Inquires turn)
    (hStep : Step files arrived turn next) :
    Inquires next := by
  cases hStep with
  | takeUp hArrived hWaiting hGoesOn =>
      rcases hInquires.accounted hWaiting with
        ⟨number, hNext, hAccounted⟩
      exact
        inquires_takeUp hNext hAccounted hWaiting files
          (hPrintable _ hArrived)
  | @answer message waiting hArrived hWaiting hAnswered =>
      rcases hInquires.pending waiting hWaiting with
        ⟨x, earlier, first, count, hExchanges, hEarlier, hAsked, hNext,
          hBudget, hNone, hMessage, hAwaited, hAwaits⟩
      have hIs :
          message.get? "method" = none ∧
            message.text? "id" = some waiting.request := by
        simpa [Waiting.isAnsweredBy] using hAnswered
      have hServer :=
        server_noteFailure (turn.note (.answered message)) waiting
          message
      apply
        inquires_resume (exchanges_answer hExchanges waiting message)
          hEarlier hAsked _ hNone hMessage hAwaited hBudget
      · exact
          Exchange.isReady_of_answer hAwaits (hPrintable _ hArrived)
            hIs.2
      · rw [hServer]
        exact hNext
  | @giveUp waiting hWaiting hClosed =>
      rcases hInquires.pending waiting hWaiting with
        ⟨x, earlier, first, count, hExchanges, hEarlier, hAsked, hNext,
          hBudget, hNone, hMessage, hAwaited, hAwaits⟩
      exact
        inquires_resume hExchanges hEarlier hAsked hNext hNone
          hMessage hAwaited hBudget
          (Exchange.isReady_of_giveUp hAwaits)
  | @interrupt waiting fault hArrived hWaiting =>
      rcases hInquires.pending waiting hWaiting with
        ⟨x, earlier, first, count, hExchanges, hEarlier, hAsked, hNext,
          _, hNone, _, hAwaited, _⟩
      have hStart :
          Session.exchanges turn.unwaiting.events = x :: earlier :=
        hExchanges
      rw [hAwaited.2]
      exact
        inquires_refuse hStart hEarlier hAsked hNone rfl (Or.inl hNext)
          (fun _ => Or.inr (Or.inl ⟨fault, rfl⟩))
  | enqueue hQueue =>
      exact ⟨hInquires.accounted, hInquires.pending⟩
  | close => exact ⟨hInquires.accounted, hInquires.pending⟩
  | crash hArrived hWaiting =>
      exact ⟨hInquires.accounted, hInquires.pending⟩
  | remark r =>
      have hSame :
          Session.exchanges (turn.note (.remarked r)).events =
            Session.exchanges turn.events :=
        Session.exchanges_remarked turn.events r
      refine ⟨?_, ?_⟩
      · rw [hSame]
        exact hInquires.accounted
      · rw [hSame]
        exact hInquires.pending

/- So do all steps. -/
theorem inquires_of_steps
    {arrived : Incoming → Prop}
    (hPrintable :
      ∀ message,
        arrived (.message message) → message.isPrintable = true)
    (hInquires : Inquires turn)
    (hSteps : Steps files arrived turn next) :
    Inquires next := by
  induction hSteps with
  | refl => exact hInquires
  | tail _ hStep ih => exact inquires_of_step hPrintable ih hStep

/- A session begins with nothing to account for. -/
theorem inquires_create
    (engine : BoundedEngine)
    (descriptors : List Descriptor) :
    Inquires ⟨Server.create engine descriptors, []⟩ := by
  have hOne : Handler.number 1 = 1 := by decide
  refine ⟨?_, ?_⟩
  · intro _
    refine ⟨1, hOne.symm, .start, ?_⟩
    intro x hMember
    cases hMember
  · intro waiting hMember
    cases hMember

end Turn

end Marginalia

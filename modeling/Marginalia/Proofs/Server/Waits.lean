import Marginalia.Proofs.Grammar.Evaluation
import Marginalia.Proofs.Server.Answers
import Marginalia.Proofs.Server.Offers
import Marginalia.Proofs.Service

/-
  This file proves that the server holds back while it waits for
  an answer.

  As long as more may arrive, the server sends a request as the
  last thing that it does about what it received.  It sends
  nothing more until it receives the answer, or something that
  cannot be read.  So no more than one request is open.

  Key definitions include:
    * `Session.received`
    * `Incoming.Ends`
    * `Session.Asking`, `Turn.AsksLast`
    * `Session.HoldsBack`
  The main statements are:
    * `Turn.asksLast_receive`
    * `Session.holdsBack`
    * `Session.run_asks`
-/

namespace Marginalia

------------------------------------------------------------
-- What Was Received
------------------------------------------------------------

/-
  What is received ends the wait for the answer to a request: it
  is the answer, or it cannot be read.
-/
def Incoming.Ends (request : Json) : Incoming → Prop
| .message answer =>
    answer.get? "method" = none ∧
      ∃ id, request.text? "id" = some id ∧ answer.text? "id" = some id
| .garbled => False
| .faultyLength => False
| .unreadable _ => True

namespace Session

/- The session after so much was received, and more may arrive. -/
def received
    (engine : BoundedEngine)
    (files : Files)
    (descriptors : List Descriptor)
    (incoming : List Incoming) : Turn :=
  Turn.takeIn files ⟨Server.create engine descriptors, []⟩ incoming

/-
  A request is the last frame that is sent on receiving
  something.  The next frame is sent after something was received
  that ends the wait for its answer.
-/
def HoldsBack
    (engine : BoundedEngine)
    (files : Files)
    (descriptors : List Descriptor)
    (incoming : List Incoming) : Prop :=
  ∀ (before middle after : List Incoming) (item : Incoming),
    incoming = before ++ item :: (middle ++ after) →
      ∃ fresh,
        frames (received engine files descriptors (before ++ [item])) =
            frames (received engine files descriptors before) ++ fresh ∧
          ∀ earlier request later,
            fresh = earlier ++ request :: later →
              Exchange.isRequest request = true →
                later = [] ∧
                  ((∃ other ∈ middle, other.Ends request) ∨
                    frames
                        (received engine files descriptors
                          (before ++ item :: middle)) =
                      frames
                        (received engine files descriptors
                          (before ++ [item])))

/- More events add their frames. -/
theorem frames_eq_append
    {before after : Turn}
    {news : List Event}
    (hNews : after.events = news ++ before.events) :
    frames after = frames before ++ (framesOf news).reverse := by
  rw [frames_eq_reverse, frames_eq_reverse, hNews, framesOf_append,
    List.reverse_append]

/- A remark is no frame. -/
theorem frames_remarked
    (turn : Turn)
    (r : Diagnostic) :
    frames (turn.note (.remarked r)) = frames turn := by
  have hNews :
      (turn.note (.remarked r)).events =
        [.remarked r] ++ turn.events := rfl
  rw [frames_eq_append hNews]
  exact List.append_nil _

/-
  Of the frames, the latest first, none is a request but the
  first one, if its answer is waited for.
-/
inductive Asking : Option Waiting → List Json → Prop
| nothing
    {frames : List Json}
    (hFrames : ∀ frame ∈ frames, Exchange.isRequest frame = false) :
    Asking none frames
| something
    {waiting : Waiting}
    {request : Json}
    {older : List Json}
    (hId : request.text? "id" = some waiting.request)
    (hOlder : ∀ frame ∈ older, Exchange.isRequest frame = false) :
    Asking (some waiting) (request :: older)

/- A request among such frames is the last one. -/
theorem eq_nil_of_asking
    {waiting? : Option Waiting}
    {frames earlier later : List Json}
    {request : Json}
    (hAsking : Asking waiting? frames)
    (hFrames : frames.reverse = earlier ++ request :: later)
    (hRequest : Exchange.isRequest request = true) :
    later = [] ∧
      ∃ waiting,
        waiting? = some waiting ∧
          request.text? "id" = some waiting.request := by
  have hSplit :
      frames = later.reverse ++ request :: earlier.reverse := by
    rw [← List.reverse_reverse frames, hFrames]
    simp
  cases hAsking with
  | nothing hNone =>
      have hNot := hNone request (by simp [hSplit])
      rw [hRequest] at hNot
      cases hNot
  | @something waiting first older hId hOlder =>
      cases hLater : later.reverse with
      | nil =>
          rw [hLater] at hSplit
          have hSame : first = request := (List.cons.inj hSplit).1
          rw [hSame] at hId
          exact ⟨List.reverse_eq_nil_iff.mp hLater, waiting, rfl, hId⟩
      | cons last rest =>
          rw [hLater] at hSplit
          have hOlderEq := (List.cons.inj hSplit).2
          have hNot := hOlder request (by simp [hOlderEq])
          rw [hRequest] at hNot
          cases hNot

end Session

------------------------------------------------------------
-- Asking Last
------------------------------------------------------------

namespace Turn

/-
  Since the start a request was sent only as the last frame, and
  only if its answer is waited for.
-/
def AsksLast (start : List Event) (turn : Turn) : Prop :=
  ∃ news,
    turn.events = news ++ start ∧
      Session.Asking turn.server.waiting (Session.framesOf news)

variable {files : Files}
variable {start : List Event}
variable {turn next : Turn}

/- At the start nothing was sent. -/
theorem asksLast_refl
    (hWaiting : turn.server.waiting = none) :
    AsksLast turn.events turn := by
  refine ⟨[], rfl, ?_⟩
  rw [hWaiting]
  exact .nothing (by simp [Session.framesOf])

/- A server that does not wait has asked for nothing. -/
theorem not_isRequest_of_asksLast
    (hAsks : AsksLast start turn)
    (hWaiting : turn.server.waiting = none) :
    ∃ news,
      turn.events = news ++ start ∧
        ∀ frame ∈ Session.framesOf news,
          Exchange.isRequest frame = false := by
  rcases hAsks with ⟨news, hNews, hAsking⟩
  rw [hWaiting] at hAsking
  cases hAsking with
  | nothing hFrames => exact ⟨news, hNews, hFrames⟩

/- Asking for nothing more keeps this. -/
theorem asksLast_of_unasked
    (hAsks : AsksLast start turn)
    (hWaiting : turn.server.waiting = none)
    (hUnasked : Unasked turn next) :
    AsksLast start next := by
  rcases not_isRequest_of_asksLast hAsks hWaiting with
    ⟨news, hNews, hFrames⟩
  rcases hUnasked.news with ⟨more, hMore, hAll⟩
  refine ⟨more ++ news, ?_, ?_⟩
  · rw [hMore, hNews, List.append_assoc]
  · rw [hUnasked.waiting_eq, hWaiting]
    apply Session.Asking.nothing
    intro frame hFrame
    rw [Session.framesOf_append] at hFrame
    rcases List.mem_append.mp hFrame with hNew | hOld
    · rw [Exchange.isRequest,
        Session.method_of_mem_framesOf hAll hNew]
      rfl
    · exact hFrames frame hOld

/- A lookup asks last. -/
theorem asksLast_of_lookedUp
    {recipient : Recipient}
    {purpose : Purpose}
    {rounds : Nat}
    {Result : Json → Prop}
    {outcome : Except HandlerError Unit × Turn}
    (hAsks : AsksLast start turn)
    (hWaiting : turn.server.waiting = none)
    (hLookedUp :
      LookedUp recipient purpose rounds Result turn outcome) :
    AsksLast start outcome.2 := by
  have hThen :
      ∀ {middle : Turn},
        Quiet turn middle →
          AsksLast start middle ∧ middle.server.waiting = none :=
    fun hQuiet =>
      ⟨asksLast_of_unasked hAsks hWaiting (unasked_of_quiet hQuiet),
        (waiting_of_quiet hQuiet).trans hWaiting⟩
  cases hLookedUp with
  | answered hQuiet _ =>
      rcases hThen hQuiet with ⟨hMiddle, hFree⟩
      exact asksLast_of_unasked hMiddle hFree (unasked_sent rfl _)
  | failed hQuiet => exact (hThen hQuiet).1
  | unsent hQuiet _ _ => exact (hThen hQuiet).1
  | @asked middle request waiting hQuiet hAsked _ =>
      rcases hThen hQuiet with ⟨hMiddle, hFree⟩
      rcases not_isRequest_of_asksLast hMiddle hFree with
        ⟨news, hNews, hFrames⟩
      refine ⟨.sent (middle.nextFrame request) :: news, ?_, ?_⟩
      · rw [List.cons_append, ← hNews]
        rfl
      · apply Session.Asking.something _ hFrames
        rw [request_of_asked hAsked]
        rfl

/- An attempt asks last if its handler does. -/
theorem asksLast_attempt
    {h : Handler Unit}
    (hAsks : AsksLast start (h.runFrom turn).2)
    (hWaits :
      (h.runFrom turn).2.server.waiting = none ∨
        ∃ next, h.runFrom turn = (.ok (), next))
    (recipient : Recipient) :
    AsksLast start (turn.attempt recipient h) := by
  unfold attempt
  cases hRun : h.runFrom turn with
  | mk result after =>
      rw [hRun] at hAsks hWaits
      cases result with
      | ok _ => exact hAsks
      | error e =>
          rcases hWaits with hFree | ⟨next, hOk⟩
          · exact
              asksLast_of_unasked hAsks hFree
                (unasked_refuse after recipient e)
          · cases hOk

/- The attempt at a lookup asks last. -/
theorem asksLast_attempt_of_lookedUp
    {purpose : Purpose}
    {rounds : Nat}
    {Result : Json → Prop}
    {recipient : Recipient}
    {h : Handler Unit}
    (hAsks : AsksLast start turn)
    (hWaiting : turn.server.waiting = none)
    (hLookedUp :
      LookedUp recipient purpose rounds Result turn (h.runFrom turn)) :
    AsksLast start (turn.attempt recipient h) := by
  apply asksLast_attempt
  · exact asksLast_of_lookedUp hAsks hWaiting hLookedUp
  · rcases waits_of_lookedUp hWaiting hLookedUp with
      hFree | ⟨next, request, waiting, _, _, hOk⟩
    · exact Or.inl hFree
    · exact Or.inr ⟨_, hOk⟩

/- Taking up a message asks last. -/
theorem asksLast_takeUp
    (hAsks : AsksLast start turn)
    (hWaiting : turn.server.waiting = none)
    (files : Files)
    (message : Json) :
    AsksLast start
      ((turn.note (.handled message)).attempt
        (Recipient.ofMessage message)
        (Handler.handle files message)) := by
  have hStart : AsksLast start (turn.note (.handled message)) := by
    rcases hAsks with ⟨news, hNews, hAsking⟩
    refine ⟨.handled message :: news, ?_, hAsking⟩
    rw [note, hNews, List.cons_append]
  cases Handler.dispatched_handle files message
      (turn.note (.handled message)) with
  | lookedUp _ _ hLookedUp =>
      exact asksLast_attempt_of_lookedUp hStart hWaiting hLookedUp
  | setUp _ _ hUnasked =>
      have hReadied :
          AsksLast start
            ((turn.note (.handled message)).readied
              message.params) :=
        hStart
      exact
        asksLast_of_unasked hReadied hWaiting
          (unasked_attempt hUnasked _)
  | unasked _ _ hUnasked =>
      exact
        asksLast_of_unasked hStart hWaiting
          (unasked_attempt hUnasked _)

/- As long as more may arrive, an answer is waited for. -/
theorem giveUp_of_open
    (hOpen : turn.server.inputClosed = false) :
    turn.giveUp = turn := by
  unfold giveUp
  rw [hOpen]

/- So nothing more is done about a message that was taken up. -/
theorem asksLast_handle
    (hAsks : AsksLast start turn)
    (hWaiting : turn.server.waiting = none)
    (hOpen : turn.server.inputClosed = false)
    (files : Files)
    (message : Json) :
    AsksLast start (turn.handle files message) ∧
      (turn.handle files message).server.inputClosed = false := by
  have hSame :=
    congrArg Course.inputClosed
      (tookUp_attempt hWaiting files message).rest_eq
  have hGiveUp := giveUp_of_open (hSame.trans hOpen)
  rw [handle, hGiveUp, hGiveUp]
  exact
    ⟨asksLast_takeUp hAsks hWaiting files message, hSame.trans hOpen⟩

/-
  Taking up the queue asks last, since it stops at a message that
  has to wait.  The induction is on the queue.
-/
theorem asksLast_drain
    (files : Files)
    (queue : List Json) :
    ∀ turn : Turn,
      AsksLast start turn →
        turn.server.inputClosed = false →
          AsksLast start (drain files queue turn) ∧
            (drain files queue turn).server.inputClosed = false := by
  induction queue with
  | nil =>
      intro turn hAsks hOpen
      exact ⟨hAsks, hOpen⟩
  | cons message rest ih =>
      intro turn hAsks hOpen
      unfold drain
      split
      · exact ⟨hAsks, hOpen⟩
      · next hGoesOn =>
          have hFree :
              turn.server.waiting = none ∧
                turn.server.isOver = false := by
            simpa using hGoesOn
          have hHandle :=
            asksLast_handle hAsks hFree.1 hOpen files message
          exact ih _ hHandle.1 hHandle.2

/- Going on after a wait asks last. -/
theorem asksLast_goOn
    {waiting : Waiting}
    {h : Handler Unit}
    (hNext : turn.attempt waiting.recipient h = next)
    (hAsks : AsksLast start next)
    (hOpen : next.server.inputClosed = false)
    (files : Files) :
    AsksLast start (turn.goOn files waiting h) ∧
      (turn.goOn files waiting h).server.inputClosed = false := by
  have hGiveUp := giveUp_of_open hOpen
  rw [goOn, hNext, hGiveUp, hGiveUp]
  exact asksLast_drain files _ _ hAsks hOpen

/- Going on with an answer asks last. -/
theorem asksLast_answer
    {waiting : Waiting}
    (message : Json) :
    AsksLast turn.events
      (((turn.note (.answered message)).noteFailure waiting
        message).attempt waiting.recipient
          (Handler.resume waiting (resultOf? message))) := by
  have hAnswered :
      AsksLast turn.events
        (turn.note (.answered message)).unwaiting :=
    ⟨[.answered message], rfl, .nothing (by simp [Session.framesOf,
      Event.frame?])⟩
  have hNoted :=
    asksLast_of_unasked hAnswered rfl
      (unasked_of_quiet
        (quiet_unwaiting (quiet_noteFailure _ waiting message)))
  unfold Handler.resume
  rw [attempt_update_bind]
  exact
    asksLast_attempt_of_lookedUp hNoted rfl
      (Handler.looksUp_proceed (resultOf? message) waiting _)

/- On receiving something a request is sent as the last frame at most. -/
theorem asksLast_receive
    (hOpen : turn.server.inputClosed = false)
    (files : Files)
    (item : Incoming) :
    (Session.frames (turn.receive files item) = Session.frames turn ∨
        AsksLast turn.events (turn.receive files item)) ∧
      (turn.receive files item).server.inputClosed = false := by
  unfold receive
  split
  · exact ⟨Or.inl rfl, hOpen⟩
  · split
    · next message hWaiting =>
        have hHandle :=
          asksLast_handle (asksLast_refl hWaiting) hWaiting hOpen files
            message
        exact ⟨Or.inr hHandle.1, hHandle.2⟩
    · next message waiting hWaiting =>
        split
        · have hSame :=
            inputClosed_of_within
              (tried_answer turn waiting message).within
          apply And.imp_left Or.inr
          exact
            asksLast_goOn rfl (asksLast_answer message)
              (hSame.trans hOpen) files
        · exact ⟨Or.inl rfl, hOpen⟩
    · exact ⟨Or.inl (Session.frames_remarked turn _), hOpen⟩
    · exact ⟨Or.inl (Session.frames_remarked turn _), hOpen⟩
    · exact ⟨Or.inl rfl, hOpen⟩
    · next fault waiting hWaiting =>
        have hSame :=
          inputClosed_of_within
            (tried_interrupt turn waiting (.unreadable fault)).within
        have hFree : AsksLast turn.events turn.unwaiting :=
          ⟨[], rfl, .nothing (by simp [Session.framesOf])⟩
        have hRefused :=
          asksLast_of_unasked hFree rfl
            (unasked_refuse turn.unwaiting waiting.recipient
              (.unreadable fault))
        apply And.imp_left Or.inr
        refine asksLast_goOn ?_ hRefused (hSame.trans hOpen) files
        rfl

------------------------------------------------------------
-- Holding Back
------------------------------------------------------------

/- What does not end the wait is kept for later. -/
theorem receive_of_not_ends
    {waiting : Waiting}
    {request : Json}
    {item : Incoming}
    (hWaiting : turn.server.waiting = some waiting)
    (hId : request.text? "id" = some waiting.request)
    (hItem : ¬item.Ends request)
    (files : Files) :
    (turn.receive files item).server.waiting = some waiting ∧
      Session.frames (turn.receive files item) =
        Session.frames turn := by
  unfold receive
  split
  · exact ⟨hWaiting, rfl⟩
  · split
    · next hNone =>
        rw [hWaiting] at hNone
        cases hNone
    · next message other hOther =>
        have hSame : other = waiting :=
          Option.some.inj (hOther.symm.trans hWaiting)
        split
        · next hAnswered =>
            have hIs :
                message.get? "method" = none ∧
                  message.text? "id" = some other.request := by
              simpa [Waiting.isAnsweredBy] using hAnswered
            rw [hSame] at hIs
            exact
              absurd ⟨hIs.1, waiting.request, hId, hIs.2⟩ hItem
        · exact ⟨hWaiting, rfl⟩
    · exact ⟨hWaiting, Session.frames_remarked turn _⟩
    · exact ⟨hWaiting, Session.frames_remarked turn _⟩
    · next hNone =>
        rw [hWaiting] at hNone
        cases hNone
    · exact absurd (by simp [Incoming.Ends]) hItem

end Turn

namespace Session

variable {files : Files}

/- Nothing is sent as long as nothing ends the wait. -/
theorem frames_foldl_receive
    {waiting : Waiting}
    {request : Json}
    (hId : request.text? "id" = some waiting.request)
    (items : List Incoming) :
    ∀ turn : Turn,
      turn.server.waiting = some waiting →
        (∀ item ∈ items, ¬item.Ends request) →
          frames (items.foldl (Turn.receive files) turn) =
            frames turn := by
  induction items with
  | nil =>
      intro turn _ _
      rfl
  | cons item rest ih =>
      intro turn hWaiting hItems
      have hFirst :=
        Turn.receive_of_not_ends hWaiting hId
          (hItems item List.mem_cons_self) files
      rw [List.foldl_cons, ih _ hFirst.1, hFirst.2]
      intro other hOther
      exact hItems other (List.mem_cons_of_mem item hOther)

/- More may arrive after what was received. -/
theorem inputClosed_foldl_receive
    (incoming : List Incoming) :
    ∀ turn : Turn,
      turn.server.inputClosed = false →
        (incoming.foldl (Turn.receive files)
          turn).server.inputClosed = false := by
  induction incoming with
  | nil =>
      intro turn hOpen
      exact hOpen
  | cons item rest ih =>
      intro turn hOpen
      exact ih _ (Turn.asksLast_receive hOpen files item).2

/- In every session the server holds back. -/
theorem holdsBack
    (engine : BoundedEngine)
    (files : Files)
    (descriptors : List Descriptor)
    (incoming : List Incoming) :
    HoldsBack engine files descriptors incoming := by
  intro before middle after item _
  have hOpen :
      (received engine files descriptors
        before).server.inputClosed = false :=
    inputClosed_foldl_receive before _ rfl
  have hNext :
      received engine files descriptors (before ++ [item]) =
        (received engine files descriptors before).receive files item := by
    rw [received, takeIn_append]
    rfl
  have hLater :
      received engine files descriptors (before ++ item :: middle) =
        middle.foldl (Turn.receive files)
          (received engine files descriptors (before ++ [item])) := by
    rw [hNext, received, takeIn_append]
    rfl
  rw [hLater, hNext]
  rcases (Turn.asksLast_receive hOpen files item).1 with
    hSame | ⟨news, hNews, hAsking⟩
  · refine ⟨[], by rw [hSame, List.append_nil], ?_⟩
    intro earlier request later hFresh
    simp at hFresh
  · refine ⟨(framesOf news).reverse, frames_eq_append hNews, ?_⟩
    intro earlier request later hFresh hRequest
    rcases eq_nil_of_asking hAsking hFresh hRequest with
      ⟨hLast, waiting, hWaiting, hId⟩
    refine ⟨hLast, ?_⟩
    by_cases hEnds : ∃ other ∈ middle, other.Ends request
    · exact Or.inl hEnds
    · right
      apply frames_foldl_receive hId middle _ hWaiting
      intro other hOther hIs
      exact hEnds ⟨other, hOther, hIs⟩

------------------------------------------------------------
-- Sessions
------------------------------------------------------------

/- What happened stays so. -/
theorem suffix_of_step
    {arrived : Incoming → Prop}
    {turn next : Turn}
    (hStep : Turn.Step files arrived turn next) :
    turn.events <:+ next.events := by
  have hOutputs :
      ∀ {before after : Turn},
        Turn.Outputs before after → before.events <:+ after.events := by
    intro before after hOutputs
    rcases hOutputs with ⟨news, hNews, _⟩
    rw [hNews]
    exact List.suffix_append news before.events
  cases hStep with
  | takeUp _ hWaiting _ =>
      exact
        (List.suffix_cons _ _).trans
          (hOutputs (Turn.tookUp_attempt hWaiting files _).outputs)
  | answer _ _ _ =>
      exact
        (List.suffix_cons _ _).trans
          (hOutputs (Turn.tried_answer turn _ _).within.outputs)
  | giveUp _ _ =>
      exact hOutputs (Turn.tried_resume_none turn _).within.outputs
  | interrupt _ _ =>
      exact hOutputs (Turn.tried_interrupt turn _ _).within.outputs
  | enqueue _ => exact List.suffix_refl _
  | close => exact List.suffix_refl _
  | crash _ _ => exact List.suffix_refl _
  | remark r => exact List.suffix_cons _ _

/- It stays so over all steps. -/
theorem suffix_of_steps
    {arrived : Incoming → Prop}
    {turn next : Turn}
    (hSteps : Turn.Steps files arrived turn next) :
    turn.events <:+ next.events := by
  induction hSteps with
  | refl => exact List.suffix_refl _
  | tail _ hStep ih => exact ih.trans (suffix_of_step hStep)

/- What is sent before the input ends is sent first. -/
theorem frames_received_prefix
    (engine : BoundedEngine)
    (files : Files)
    (descriptors : List Descriptor)
    (incoming : List Incoming) :
    frames (received engine files descriptors incoming) <+:
      frames (run files (Server.create engine descriptors) incoming) := by
  have hSound :
      Turn.Sound (fun _ => True) ⟨Server.create engine descriptors, []⟩ :=
    Turn.sound_create (fun _ => True) engine descriptors
  have hReceived :
      Turn.Steps files (fun _ => True)
        ⟨Server.create engine descriptors, []⟩
        (received engine files descriptors incoming) :=
    steps_foldl_receive incoming _ hSound (fun _ _ => trivial)
  have hFinished :
      Turn.Steps files (fun _ => True)
        (received engine files descriptors incoming)
        (run files (Server.create engine descriptors) incoming) :=
    Turn.steps_finish (Turn.sound_of_steps hSound hReceived)
  rcases suffix_of_steps hFinished with ⟨news, hNews⟩
  exact ⟨_, (frames_eq_append hNews.symm).symm⟩

/- The requests that were sent are those of the exchanges. -/
theorem requests_eq_exchanges
    {turn : Turn}
    (hExchanged : Exchanged turn.events) :
    requests turn =
      (exchanges turn.events).reverse.flatMap Exchange.requests := by
  rw [Exchanged] at hExchanged
  rw [requests, frames_eq_reverse, hExchanged, List.filter_reverse,
    List.filter_flatMap, List.reverse_flatMap]
  rfl

/-
  In every session the requests bear the ids of growing numbers,
  from one on, and no `id` is used again unless there are very
  many requests.  A number is passed over only if its request is
  not UTF-8; the message that needed it is refused then.  After
  a request nothing is sent before its answer is received, or
  something that cannot be read, or the end of the input.  Only
  what the client last offered is asked for.  The gloss in the
  answer to a hover is the one in the answer to the request that
  was sent for it.
-/
theorem run_asks
    (engine : BoundedEngine)
    (files : Files)
    (descriptors : List Descriptor)
    (input : Bytes) :
    let incoming := Incoming.ofStream input
    let turn := run files (Server.create engine descriptors) incoming
    (∃ next,
        turn.server.nextRequest = Handler.number next ∧
          Numbered next (exchanges turn.events) ∧
            requests turn =
                (exchanges turn.events).reverse.flatMap
                  Exchange.requests ∧
              HasGrowingIds next (requests turn) ∧
                (next ≤ Word.size32 →
                  ((requests turn).map (fun frame =>
                    frame.get? "id")).Nodup)) ∧
      (HoldsBack engine files descriptors incoming ∧
          frames (received engine files descriptors incoming) <+:
            frames turn) ∧
        AsksForOffers turn.events ∧
          ∀ x ∈ exchanges turn.events, x.Glossed := by
  intro incoming turn
  let start : Turn := ⟨Server.create engine descriptors, []⟩
  let arrived : Incoming → Prop := fun item => item ∈ incoming
  have hPrintable :
      ∀ message,
        arrived (.message message) → message.isPrintable = true :=
    fun _ hMessage => Incoming.isPrintable_of_mem_ofStream input hMessage
  have hSound : Turn.Sound arrived start :=
    Turn.sound_create arrived engine descriptors
  have hSteps : Turn.Steps files arrived start turn :=
    steps_run hSound (fun _ hItem => hItem)
  have hWaiting : turn.server.waiting = none :=
    waiting_run hSound (fun _ hItem => hItem) files
  have hSettles : turn.Settles :=
    Turn.settles_of_steps hPrintable
      (Turn.settles_create engine descriptors) hSteps
  have hInquires : turn.Inquires :=
    Turn.inquires_of_steps hPrintable
      (Turn.inquires_create engine descriptors) hSteps
  have hOffers : turn.Offers :=
    Turn.offers_of_steps (Turn.offers_create engine descriptors) hSteps
  rcases hInquires.accounted hWaiting with
    ⟨next, hNext, hNumbered, hGlossed⟩
  have hRequests := requests_eq_exchanges hSettles.exchanged
  have hIds : HasGrowingIds next (requests turn) := by
    rw [hRequests]
    exact (hasGrowingIds_of_numbered hNumbered).2
  refine ⟨⟨next, hNext, hNumbered, hRequests, hIds, ?_⟩, ⟨?_, ?_⟩, ?_,
    hGlossed⟩
  · exact nodup_of_hasGrowingIds hIds
  · exact holdsBack engine files descriptors incoming
  · exact frames_received_prefix engine files descriptors incoming
  · exact hOffers.asksForOffers

end Session

------------------------------------------------------------
-- Requests That Are Not Sent
------------------------------------------------------------

namespace Handler

/- A lookup that looks into the document at once. -/
theorem runFrom_lookUp
    {files : Files}
    {params : Json}
    {inquiry : Inquiry}
    {turn next : Turn}
    (hUri : params.documentUri = .ok inquiry.document.uri)
    (hDocument :
      turn.server.document? inquiry.document.uri =
        some inquiry.document)
    (hPosition : params.documentPosition = .ok inquiry.position)
    (hGrammar :
      (grammarFor files inquiry.document.languageId).runFrom turn =
        (.ok (some inquiry.grammar), next))
    (hAsks : next.server.asksSelection = false) :
    (lookUp files inquiry.recipient inquiry.purpose params).runFrom
        turn =
      (compute inquiry).runFrom next := by
  unfold lookUp
  rw [hUri, read_ok, pure_bind, runFrom_server_bind, hDocument]
  dsimp only
  rw [hPosition, read_ok, pure_bind, runFrom_bind_of_ok hGrammar]
  dsimp only
  rw [runFrom_server_bind, hAsks]
  rfl

/-
  The gloss of a comment that is not UTF-8 is not asked for, but
  its request takes a number.
-/
theorem runFrom_deliverHover_of_not_isValid
    {block : CommentBlock}
    {turn : Turn}
    (hAsks : turn.server.asksGloss = true)
    (hSpelled : Utf8.isValid block.spelled = false)
    (recipient : Recipient) :
    (deliverHover recipient block).runFrom turn =
      (.error .unprintable, counted turn) := by
  let target := turn.server.service.settings.target
  let request : Request :=
    { method := Gloss.method
      params :=
        Json.record
          [("text", .text block.spelled), ("to", .text target)] }
  have hRequest :
      Gloss.request? block.spelled target = some request := by
    have hSome : block.spelled.isEmpty = false := by
      cases hList : block.spelled with
      | nil =>
          rw [hList] at hSpelled
          cases hSpelled
      | cons _ _ => rfl
    rw [Gloss.request?, hSome]
    rfl
  have hFrame : ¬(turn.nextFrame request).isPrintable = true := by
    intro hFrame
    have hValid := Turn.isValid_of_nextFrame hRequest hFrame
    rw [hSpelled] at hValid
    cases hValid
  unfold deliverHover
  rw [runFrom_server_bind]
  dsimp only
  rw [if_pos hAsks, hRequest]
  exact
    runFrom_bind_of_error (runFrom_ask_of_not_isPrintable hFrame) _

/- A hover on such a comment fails. -/
theorem runFrom_compute_of_not_isValid
    {inquiry : Inquiry}
    {block : CommentBlock}
    {service : Service}
    {turn : Turn}
    (hCompute :
      turn.server.service.compute inquiry.document inquiry.grammar
          inquiry.position =
        (.ok (.found block), service))
    (hPurpose : inquiry.purpose = .hover)
    (hAsks : turn.server.asksGloss = true)
    (hSpelled : Utf8.isValid block.spelled = false) :
    (compute inquiry).runFrom turn =
      (.error .unprintable,
        counted
          ((turn.update (fun s => { s with service := service })).note
            (.remarked
              (Service.remark inquiry.document inquiry.position
                (.found block))))) := by
  unfold compute
  rw [runFrom_server_bind, hCompute]
  dsimp only
  rw [runFrom_update_bind, runFrom_remark_bind, hPurpose]
  apply runFrom_deliverHover_of_not_isValid _ hSpelled
  exact hAsks

end Handler

/-
  A session in which both happens: the first number is passed
  over, and a wait ends without an answer.  The grammar cuts the
  letter after the exclamation mark in two.
-/
namespace Session.Skipping

/- A position in the document. -/
def position : Json :=
  Json.record [("line", .int 0), ("character", .int 0)]

/- The client says what it can be asked for. -/
def setUp (options : List (String × Json)) : Json :=
  Json.record
    [ ("method", Json.ofString "initialize"),
      ("params",
        Json.record [("initializationOptions", Json.record options)]) ]

/- The document: an exclamation mark and a letter of two bytes. -/
def document : Document :=
  { uri := utf8 "a"
    languageId := utf8 "c"
    version := 0
    text := [0x21, 0xC3, 0xA9] }

/- It is opened. -/
def opened : Json :=
  Json.record
    [ ("method", Json.ofString "textDocument/didOpen"),
      ("params",
        Json.record
          [ ("textDocument",
              Json.record
                [ ("uri", .text document.uri),
                  ("languageId", .text document.languageId),
                  ("text", .text document.text) ]) ]) ]

/- A lookup in it. -/
def asked (id : Int) (purpose : Purpose) : Json :=
  Json.record
    [ ("id", .int id),
      ("method", Json.ofString purpose.method),
      ("params",
        Json.record
          [ ("textDocument",
              Json.record [("uri", .text document.uri)]),
            ("position", position) ]) ]

/- The messages up to a hover. -/
def before : List Json :=
  [setUp [("translate", .bool true)], opened]

/- The messages after the hover. -/
def after : List Json :=
  [setUp [("selectionContains", .bool true)], asked 2 .report]

/- All messages of the session. -/
def messages : List Json :=
  before ++ asked 1 .hover :: after

/- The session on the wire.  At its end comes too long a body. -/
def input : Bytes :=
  (messages.map Json.compact).flatMap Frame.encode ++
    Frame.announce (Frame.maxLength + 1)

/- The descriptors of the session. -/
def descriptors : List Descriptor :=
  [⟨[document.languageId], [], utf8 "c.json"⟩]

/- The grammar: a comment is an exclamation mark and one more byte. -/
def table : Json :=
  Json.record
    [ ("scopeName", Json.ofString "source.c"),
      ("patterns",
        .array
          [ Json.record
              [ ("match", Json.ofString "!."),
                ("name", Json.ofString "comment.c") ] ]) ]

/- What its file holds, like all others. -/
def files : Files :=
  fun _ => some table.compact

/- The messages and the body arrive. -/
theorem ofStream_input :
    Incoming.ofStream input =
      messages.map Incoming.message ++ [.unreadable .overlong] := by
  have hBodies :
      ∀ body ∈ messages.map Json.compact,
        body ≠ [] ∧ body.length ≤ Frame.maxLength := by
    decide
  have hBody :
      Incoming.ofStream (Frame.announce (Frame.maxLength + 1)) =
        [.unreadable .overlong] := by
    have hAnnounce :=
      Incoming.ofStream_announce (Nat.lt_succ_self Frame.maxLength)
        (by decide) []
    rwa [List.append_nil, Incoming.ofStream_nil] at hAnnounce
  rw [input, Incoming.ofStream_encoded_append hBodies, hBody]
  rfl

/- The session when the hover is taken up. -/
def begun : Turn :=
  (received .standard files descriptors (before.map Incoming.message)).note
    (.handled (asked 1 .hover))

/- The grammar is found. -/
def learned : Except HandlerError (Option LoadedGrammar) × Turn :=
  (Handler.grammarFor files document.languageId).runFrom begun

/- The grammar that is found. -/
def grammar : LoadedGrammar :=
  match learned.1 with
  | .ok (some grammar) => grammar
  | _ => default

/- The same grammar, found within a bound. -/
def evaluated : Grammar :=
  (Grammar.ofJsonWithin? .standard 5 table).getD default

/- The comment that is found with it. -/
def block : CommentBlock :=
  { range := ⟨⟨0, 0⟩, ⟨0, 2⟩⟩
    comment := [0x21, 0xC3]
    isLineComment := true
    humanize := false
    scope := utf8 "comment.c" }

/- The hover looks into the document. -/
def inquiry : Inquiry :=
  { recipient := Recipient.ofMessage (asked 1 .hover)
    purpose := .hover
    document := document
    position := ⟨0, 0⟩
    grammar := grammar }

/- The session after the hover: it is refused. -/
def refused : Turn :=
  let service := learned.2.server.service
  (Handler.counted
    ((learned.2.update (fun s =>
      { s with
        service :=
          (service.compute inquiry.document inquiry.grammar
            inquiry.position).2 })).note
      (.remarked
        (Service.remark inquiry.document inquiry.position
          (.found block))))).refuse inquiry.recipient .unprintable

/- The grammar can be evaluated. -/
theorem grammar_eq_evaluated :
    grammar.grammar = evaluated := by
  have hSome : (Grammar.ofJsonWithin? .standard 5 table).isSome = true := by
    decide +kernel
  have hWithin :
      Grammar.ofJsonWithin? .standard 5 table = some evaluated := by
    rcases Option.isSome_iff_exists.mp hSome with ⟨found, hFound⟩
    rw [evaluated, hFound]
    rfl
  have hLoaded :
      Grammar.ofJson .standard table = (.ok (some grammar.grammar), []) :=
    rfl
  have hSame :=
    hLoaded.symm.trans (Grammar.ofJson_of_ofJsonWithin? hWithin)
  exact
    Option.some.inj (Except.ok.inj (Prod.mk.inj hSame).1)

/- The comment is found. -/
theorem compute_inquiry :
    ∃ later,
      learned.2.server.service.compute inquiry.document
          inquiry.grammar inquiry.position =
        (.ok (.found block), later) := by
  have hEntries : learned.2.server.service.cache.entries = [] := rfl
  apply Service.compute_of_extendWithin? 5 hEntries
  rw [inquiry, grammar_eq_evaluated]
  decide +kernel

/- The hover is refused, since its comment is not UTF-8. -/
theorem receive_hover :
    received .standard files descriptors
        ((before ++ [asked 1 .hover]).map Incoming.message) =
      refused := by
  have hMethod : (asked 1 .hover).HasMethod Purpose.hover.method := by
    unfold Json.HasMethod
    decide
  have hDocument :
      begun.server.document? document.uri = some document := by
    decide +kernel
  have hSpelled : Utf8.isValid block.spelled = false := by
    decide +kernel
  have hHandle :
      received .standard files descriptors
          ((before ++ [asked 1 .hover]).map Incoming.message) =
        ((begun.attempt inquiry.recipient
          (Handler.handle files (asked 1 .hover))).giveUp).giveUp :=
    rfl
  have hLookUp :
      (Handler.lookUp files inquiry.recipient inquiry.purpose
          (asked 1 .hover).params).runFrom begun =
        (Handler.compute inquiry).runFrom learned.2 :=
    Handler.runFrom_lookUp rfl hDocument rfl rfl rfl
  have hAttempt :
      begun.attempt inquiry.recipient
          (Handler.handle files (asked 1 .hover)) =
        refused := by
    rcases compute_inquiry with ⟨later, hCompute⟩
    have hAsks : learned.2.server.asksGloss = true := rfl
    have hRun :=
      Handler.runFrom_compute_of_not_isValid hCompute rfl hAsks
        hSpelled
    rw [Handler.handle_of_lookUp hMethod,
      refused, hCompute]
    exact
      Turn.attempt_of_error (hLookUp.trans hRun) inquiry.recipient
  rw [hHandle, hAttempt]
  rfl

/-
  The first request of the session has the number two, and after
  it a refusal is sent although no message was received.
-/
theorem requests_input :
    (requests
          (run files (Server.create .standard descriptors)
            (Incoming.ofStream input))).map (fun frame =>
              frame.get? "id") =
        [some (.text (Handler.requestId 2))] ∧
      Incoming.ofStream input =
          messages.map Incoming.message ++ [.unreadable .overlong] ∧
        ∃ earlier request reply,
          frames
                (received .standard files descriptors
                  (messages.map Incoming.message)) =
              earlier ++ [request] ∧
            Exchange.isRequest request = true ∧
              frames
                  (received .standard files descriptors
                    (Incoming.ofStream input)) =
                earlier ++ [request, reply] := by
  have hSplit :
      ∀ items : List Incoming,
        received .standard files descriptors
            (messages.map Incoming.message ++ items) =
          (after.map Incoming.message ++ items).foldl
            (Turn.receive files) refused := by
    intro items
    have hHover :
        messages.map Incoming.message ++ items =
          (before ++ [asked 1 .hover]).map Incoming.message ++
            (after.map Incoming.message ++ items) :=
      rfl
    rw [← receive_hover, hHover, received, takeIn_append]
    rfl
  have hMessages := hSplit []
  rw [List.append_nil, List.append_nil] at hMessages
  refine ⟨?_, ofStream_input, ?_⟩
  · have hRun :
        run files (Server.create .standard descriptors)
            (messages.map Incoming.message ++ [.unreadable .overlong]) =
          (received .standard files descriptors
            (messages.map Incoming.message ++
              [.unreadable .overlong])).finish files :=
      rfl
    rw [ofStream_input, hRun, hSplit]
    rfl
  · let sent := frames ((after.map Incoming.message).foldl
      (Turn.receive files) refused)
    rw [ofStream_input, hSplit, hMessages]
    exact
      ⟨sent.dropLast, sent.getLastD .null,
        Handler.errorFrame (.int 2) Handler.internalError
          (utf8 (HandlerError.unreadable .overlong).message),
        rfl, rfl, rfl⟩

end Session.Skipping

end Marginalia

import Marginalia.Proofs.Server.Steps

/-
  This file reads the events of a session as exchanges: a message
  that was taken up, the answers that were taken for it, and the
  frames that were sent for it.

  Key definitions include:
    * `Exchange`, `Exchange.replies`
    * `Session.exchanges`
    * `Turn.Replies`
    * `Recipient.reply`, `Recipient.refusal`
  The main statements are:
    * `Turn.exchanges_of_replies`
    * `Turn.replies_attempt_answer`
-/

namespace Marginalia

------------------------------------------------------------
-- Exchanges
------------------------------------------------------------

/-
  A message that was taken up, and what came of it: the messages
  that were taken as answers and the frames that were sent, the
  latest first.
-/
structure Exchange where
  message : Json
  answers : List Json
  sent : List Json

namespace Exchange

/- One more event of the exchange. -/
def add (event : Event) (exchange : Exchange) : Exchange :=
  match event with
  | .answered message =>
      { exchange with answers := message :: exchange.answers }
  | .sent frame => { exchange with sent := frame :: exchange.sent }
  | .handled _ => exchange
  | .remarked _ => exchange

/- The frame has a method, so that it is a request of the server. -/
def isRequest (frame : Json) : Bool :=
  (frame.get? "method").isSome

/- The frames that were sent, but for the requests of the server. -/
def replies (exchange : Exchange) : List Json :=
  exchange.sent.filter (fun frame => !isRequest frame)

end Exchange

namespace Session

/- The exchanges of a session, from its events; the latest first. -/
def exchanges : List Event → List Exchange
| [] => []
| .handled message :: events =>
    { message := message, answers := [], sent := [] } ::
      exchanges events
| .answered message :: events =>
    (exchanges events).modifyHead (Exchange.add (.answered message))
| .sent frame :: events =>
    (exchanges events).modifyHead (Exchange.add (.sent frame))
| .remarked r :: events =>
    (exchanges events).modifyHead (Exchange.add (.remarked r))

/- The frames of some events, the latest first. -/
def framesOf (events : List Event) : List Json :=
  events.filterMap Event.frame?

@[simp]
theorem framesOf_append
    (news events : List Event) :
    framesOf (news ++ events) = framesOf news ++ framesOf events :=
  List.filterMap_append

/- Remarks are no frames. -/
theorem framesOf_remarked
    (remarks : List Diagnostic) :
    framesOf (remarks.map Event.remarked) = [] := by
  apply List.filterMap_eq_nil_iff.mpr
  intro event hEvent
  rcases List.mem_map.mp hEvent with ⟨r, _, hRemark⟩
  rw [← hRemark]
  rfl

/- The latest frames are the last ones of a session. -/
theorem frames_eq_reverse
    (turn : Turn) :
    frames turn = (framesOf turn.events).reverse := by
  rw [frames, List.filterMap_reverse]
  rfl

/- Outputs add their frames to the latest exchange. -/
theorem exchanges_append
    {events : List Event}
    {exchange : Exchange}
    {earlier : List Exchange}
    (hExchanges : exchanges events = exchange :: earlier)
    (news : List Event)
    (hNews : ∀ event ∈ news, event.isOutput = true) :
    exchanges (news ++ events) =
      { exchange with sent := framesOf news ++ exchange.sent } ::
        earlier := by
  induction news with
  | nil => exact hExchanges
  | cons event news ih =>
      have hRest := ih (fun other hOther =>
        hNews other (List.mem_cons_of_mem event hOther))
      have hEvent := hNews event List.mem_cons_self
      cases event with
      | handled message => cases hEvent
      | answered message => cases hEvent
      | sent frame =>
          rw [List.cons_append, exchanges, hRest]
          rfl
      | remarked r =>
          rw [List.cons_append, exchanges, hRest]
          rfl

/- A remark adds nothing. -/
theorem exchanges_remarked
    (events : List Event)
    (r : Diagnostic) :
    exchanges (.remarked r :: events) = exchanges events := by
  rw [exchanges]
  cases exchanges events <;> rfl

theorem exchanges_remarks
    (remarks : List Diagnostic)
    (events : List Event) :
    exchanges (remarks.map Event.remarked ++ events) =
      exchanges events := by
  induction remarks with
  | nil => rfl
  | cons r remarks ih =>
      rw [List.map_cons, List.cons_append, exchanges_remarked, ih]

/- An answer is added to the latest exchange. -/
theorem exchanges_answered
    {events : List Event}
    {exchange : Exchange}
    {earlier : List Exchange}
    (hExchanges : exchanges events = exchange :: earlier)
    (message : Json) :
    exchanges (.answered message :: events) =
      { exchange with answers := message :: exchange.answers } ::
        earlier := by
  rw [exchanges, hExchanges]
  rfl

end Session

------------------------------------------------------------
-- Replies
------------------------------------------------------------

namespace Turn

/-
  Between the turns there are only outputs, and these are the
  frames among them that are no requests of the server.
-/
def Replies (frames : List Json) (before after : Turn) : Prop :=
  ∃ news,
    after.events = news ++ before.events ∧
      (∀ event ∈ news, event.isOutput = true) ∧
        (Session.framesOf news).filter
            (fun frame => !Exchange.isRequest frame) =
          frames

theorem replies_refl
    (turn : Turn) :
    Replies [] turn turn :=
  ⟨[], rfl, by simp, rfl⟩

/- Replies come after those before. -/
theorem replies_trans
    {a b c : Turn}
    {first second : List Json}
    (hFirst : Replies first a b)
    (hSecond : Replies second b c) :
    Replies (second ++ first) a c := by
  rcases hFirst with ⟨news, hNews, hOutputs, hFrames⟩
  rcases hSecond with ⟨later, hLater, hLaterOutputs, hLaterFrames⟩
  refine ⟨later ++ news, ?_, ?_, ?_⟩
  · rw [hLater, hNews, List.append_assoc]
  · intro event hEvent
    rcases List.mem_append.mp hEvent with hNew | hOld
    · exact hLaterOutputs event hNew
    · exact hOutputs event hOld
  · rw [← hFrames, ← hLaterFrames]
    simp [Session.framesOf]

/- A remark is no reply. -/
theorem replies_remark
    (turn : Turn)
    (r : Diagnostic) :
    Replies [] turn (turn.note (.remarked r)) :=
  ⟨[.remarked r], rfl, by simp [Event.isOutput], rfl⟩

/- A change of the server is no reply. -/
theorem replies_update
    (turn : Turn)
    (f : Server → Server) :
    Replies [] turn (turn.update f) :=
  ⟨[], rfl, by simp, rfl⟩

/- A frame without a method is a reply. -/
theorem replies_sent
    {frame : Json}
    (hFrame : frame.get? "method" = none)
    (turn : Turn) :
    Replies [frame] turn (turn.note (.sent frame)) := by
  refine ⟨[.sent frame], rfl, by simp [Event.isOutput], ?_⟩
  simp [Session.framesOf, Event.frame?, Exchange.isRequest, hFrame]

/- A frame with a method is no reply. -/
theorem replies_requested
    {frame : Json}
    (hFrame : Exchange.isRequest frame = true)
    (turn : Turn) :
    Replies [] turn (turn.note (.sent frame)) := by
  refine ⟨[.sent frame], rfl, by simp [Event.isOutput], ?_⟩
  simp [Session.framesOf, Event.frame?, hFrame]

/- Replies are added to those of the latest exchange. -/
theorem exchanges_of_replies
    {before after : Turn}
    {frames : List Json}
    {exchange : Exchange}
    {earlier : List Exchange}
    (hReplies : Replies frames before after)
    (hExchanges :
      Session.exchanges before.events = exchange :: earlier) :
    ∃ sent,
      Session.exchanges after.events =
          { exchange with sent := sent } :: earlier ∧
        ({ exchange with sent := sent } : Exchange).replies =
          frames ++ exchange.replies := by
  rcases hReplies with ⟨news, hNews, hOutputs, hFrames⟩
  refine ⟨Session.framesOf news ++ exchange.sent, ?_, ?_⟩
  · rw [hNews]
    exact Session.exchanges_append hExchanges news hOutputs
  · rw [Exchange.replies, List.filter_append, hFrames]
    rfl

/- Outputs are replies to the latest exchange or requests. -/
theorem replies_of_outputs
    {before after : Turn}
    (hOutputs : Outputs before after) :
    ∃ frames, Replies frames before after := by
  rcases hOutputs with ⟨news, hNews, hOutput⟩
  exact ⟨_, news, hNews, hOutput, rfl⟩

------------------------------------------------------------
-- Attempts Piece by Piece
------------------------------------------------------------

/- An attempt that succeeds. -/
theorem attempt_of_ok
    {h : Handler Unit}
    {turn next : Turn}
    (hRun : h.runFrom turn = (.ok (), next))
    (recipient : Recipient) :
    turn.attempt recipient h = next := by
  rw [attempt, hRun]

/- An attempt that fails. -/
theorem attempt_of_error
    {h : Handler Unit}
    {turn next : Turn}
    {e : HandlerError}
    (hRun : h.runFrom turn = (.error e, next))
    (recipient : Recipient) :
    turn.attempt recipient h = next.refuse recipient e := by
  rw [attempt, hRun]

/- An attempt goes on after its first piece. -/
theorem attempt_bind
    {α : Type}
    {h : Handler α}
    {turn next : Turn}
    {value : α}
    (hRun : h.runFrom turn = (.ok value, next))
    (recipient : Recipient)
    (k : α → Handler Unit) :
    turn.attempt recipient (h >>= k) =
      next.attempt recipient (k value) := by
  unfold attempt
  rw [Handler.runFrom_bind_of_ok hRun]

/- An attempt looks at the server. -/
theorem attempt_server_bind
    (turn : Turn)
    (recipient : Recipient)
    (k : Server → Handler Unit) :
    turn.attempt recipient (Handler.server >>= k) =
      turn.attempt recipient (k turn.server) :=
  rfl

end Turn

/- What is sent to refuse a message. -/
def Recipient.refusal
    (recipient : Recipient)
    (e : HandlerError) : List Json :=
  recipient.id?.toList.map (fun id =>
    Handler.errorFrame id Handler.internalError (utf8 e.message))

/-
  What is sent to answer a message: the result, or a refusal if
  it is not UTF-8.
-/
def Recipient.reply (recipient : Recipient) (result : Json) : List Json :=
  if (Handler.resultFrame recipient result).isPrintable then
    [Handler.resultFrame recipient result]
  else
    recipient.refusal .unprintable

namespace Turn

/- A refusal is a reply. -/
theorem replies_refuse
    (turn : Turn)
    (recipient : Recipient)
    (e : HandlerError) :
    Replies (recipient.refusal e) turn (turn.refuse recipient e) := by
  unfold refuse Recipient.refusal
  cases recipient.id? with
  | none => exact replies_refl turn
  | some id => exact replies_sent rfl turn

/- A refusal leaves the server as it is. -/
theorem server_refuse
    (turn : Turn)
    (recipient : Recipient)
    (e : HandlerError) :
    (turn.refuse recipient e).server = turn.server := by
  unfold refuse
  cases recipient.id? <;> rfl

/- A remark on a failure of the client leaves the server as it is. -/
theorem server_noteFailure
    (turn : Turn)
    (waiting : Waiting)
    (message : Json) :
    (turn.noteFailure waiting message).server = turn.server := by
  unfold noteFailure
  split <;> rfl

/- Quiet turns have the same exchanges. -/
theorem exchanges_of_quiet
    {before after : Turn}
    (hQuiet : Quiet before after) :
    Session.exchanges after.events =
      Session.exchanges before.events := by
  rcases hQuiet.events_eq with ⟨remarks, hEvents⟩
  rw [hEvents]
  exact Session.exchanges_remarks remarks before.events

/- Quiet turns have the same frames. -/
theorem framesOf_of_quiet
    {before after : Turn}
    (hQuiet : Quiet before after) :
    Session.framesOf after.events =
      Session.framesOf before.events := by
  rcases hQuiet.events_eq with ⟨remarks, hEvents⟩
  rw [hEvents, Session.framesOf_append, Session.framesOf_remarked]
  rfl

/- The exchange of a message that is taken up. -/
theorem exchanges_handled
    (turn : Turn)
    (message : Json) :
    Session.exchanges (turn.note (.handled message)).events =
      { message := message, answers := [], sent := [] } ::
        Session.exchanges turn.events :=
  rfl

/- The answer that is taken is one of the latest exchange. -/
theorem exchanges_answer
    {turn : Turn}
    {x : Exchange}
    {earlier : List Exchange}
    (hExchanges : Session.exchanges turn.events = x :: earlier)
    (waiting : Waiting)
    (message : Json) :
    Session.exchanges
        ((turn.note (.answered message)).noteFailure waiting
          message).events =
      { x with answers := message :: x.answers } :: earlier :=
  (exchanges_of_quiet (quiet_noteFailure _ waiting message)).trans
    (Session.exchanges_answered hExchanges message)

/- The server of an attempt is the one that its handler leaves. -/
theorem server_attempt
    (turn : Turn)
    (recipient : Recipient)
    (h : Handler Unit) :
    (turn.attempt recipient h).server = (h.runFrom turn).2.server := by
  unfold attempt
  cases hRun : h.runFrom turn with
  | mk result next =>
      cases result with
      | ok value => rfl
      | error e => exact server_refuse next recipient e

/- The attempt at an answer replies with it. -/
theorem replies_attempt_answer
    (turn : Turn)
    (recipient : Recipient)
    (result : Json) :
    Replies (recipient.reply result) turn
      (turn.attempt recipient (Handler.answer recipient result)) := by
  unfold attempt Handler.answer Recipient.reply
  by_cases hFrame :
      (Handler.resultFrame recipient result).isPrintable = true
  · rw [Handler.runFrom_send_of_isPrintable hFrame, if_pos hFrame]
    exact replies_sent rfl turn
  · rw [Handler.runFrom_send_of_not_isPrintable hFrame,
      if_neg hFrame]
    exact replies_refuse turn recipient .unprintable

end Turn

end Marginalia

import Marginalia.Proofs.Json
import Marginalia.Proofs.Server.Exchanges
import Marginalia.Proofs.Server.Replica

/-
  This file says what the handling of each kind of message comes
  to.

  A message is replied to by the last act of its handling, if at
  all.  So a handling that fails has not replied yet, and neither
  has a lookup that waits; what is waited for knows whom to
  answer.

  Key definitions include:
    * `Handler.requests`, `Handler.notifications`
    * `Json.IsRequest`, `Json.IsSilent`
    * `Json.Returns`, `Json.Replied`
    * `Turn.AwaitedFor`, `Turn.Handled`
  The main statements are:
    * `Json.exists_frame_of_replied`
    * `Json.eq_nil_of_replied`
    * `Turn.handled_handle`
    * `Turn.handled_resume`
-/

namespace Marginalia

------------------------------------------------------------
-- Kinds of Messages
------------------------------------------------------------

namespace Handler

/- The methods that are answered. -/
def requests : List String :=
  [ "initialize", Purpose.hover.method, Purpose.report.method,
    "shutdown" ]

/- The methods that are not. -/
def notifications : List String :=
  [ "initialized", "exit", "textDocument/didOpen",
    "textDocument/didChange", "textDocument/didClose",
    "workspace/didChangeConfiguration" ]

end Handler

namespace Json

/- The method has a name that is not known. -/
def IsUnknown (message : Json) (method : Bytes) : Prop :=
  message.text? "method" = some method ∧
    ∀ name ∈ Handler.requests ++ Handler.notifications,
      method ≠ utf8 name

/- The method is no text. -/
def IsUnnamed (message : Json) : Prop :=
  (message.get? "method").isSome ∧ message.text? "method" = none

/- The method is one that is answered. -/
def IsRequest (message : Json) : Prop :=
  (∃ name ∈ Handler.requests, message.HasMethod name) ∨
    (∃ method, message.IsUnknown method) ∨ message.IsUnnamed

/- The message is one that is not answered. -/
def IsSilent (message : Json) : Prop :=
  message.get? "method" = none ∨
    message.get? "id" = none ∧
      ((∃ name ∈ Handler.notifications, message.HasMethod name) ∨
        ∃ method, message.IsUnknown method)

/- What is sent if the handling of the message succeeds. -/
inductive Returns (message : Json) : List Json → Prop
| noMethod
    (hMethod : message.get? "method" = none) :
    Returns message []
| notified
    {name : String}
    (hName : name ∈ Handler.notifications)
    (hMethod : message.HasMethod name) :
    Returns message []
| ready
    (hMethod : message.HasMethod "initialize") :
    Returns message
      [ Handler.resultFrame (Recipient.ofMessage message)
          Handler.capabilities ]
| shutDown
    (hMethod : message.HasMethod "shutdown") :
    Returns message
      [Handler.resultFrame (Recipient.ofMessage message) .null]
| lookedUp
    {purpose : Purpose}
    {result : Json}
    (hMethod : message.HasMethod purpose.method) :
    Returns message
      [Handler.resultFrame (Recipient.ofMessage message) result]
| unknown
    {method : Bytes}
    (hMethod : message.IsUnknown method) :
    Returns message
      ((message.get? "id").toList.map (fun id =>
        Handler.errorFrame id Handler.methodNotFound
          (utf8 "Method not found: " ++ method)))

/- The handling of the message may fail. -/
def MayFail (message : Json) : Prop :=
  message.IsUnnamed ∨
    (∃ purpose : Purpose, message.HasMethod purpose.method) ∨
      ∃ name ∈ Handler.notifications, message.HasMethod name

/-
  What is sent in reply to the message: what its handling
  returns, or a refusal if that fails.
-/
inductive Replied (message : Json) : List Json → Prop
| returned
    {frames : List Json}
    (hReturns : message.Returns frames) :
    Replied message frames
| refused
    {e : HandlerError}
    (hFails : message.MayFail) :
    Replied message ((Recipient.ofMessage message).refusal e)

/- The name of the method decides which message it is. -/
theorem eq_of_hasMethod
    {message : Json}
    {first second : String}
    (hFirst : message.HasMethod first)
    (hSecond : message.HasMethod second) :
    utf8 first = utf8 second :=
  Option.some.inj (hFirst.symm.trans hSecond)

/- So it decides the purpose of a lookup. -/
theorem purpose_eq_of_hasMethod
    {message : Json}
    {first second : Purpose}
    (hFirst : message.HasMethod first.method)
    (hSecond : message.HasMethod second.method) :
    first = second := by
  have hSame := eq_of_hasMethod hFirst hSecond
  have hNot :
      utf8 Purpose.hover.method ≠ utf8 Purpose.report.method := by
    decide
  cases first <;> cases second
  · rfl
  · exact absurd hSame hNot
  · exact absurd hSame.symm hNot
  · rfl

/- A message with a method has it as a member. -/
theorem isSome_of_hasMethod
    {message : Json}
    {name : String}
    (hMethod : message.HasMethod name) :
    message.get? "method" ≠ none := by
  rw [get?_of_text? hMethod]
  exact Option.some_ne_none _

/- No method is both answered and not. -/
theorem ne_of_mem_requests
    {name other : String}
    (hName : name ∈ Handler.requests)
    (hOther : other ∈ Handler.notifications) :
    utf8 name ≠ utf8 other := by
  have hAll :
      ∀ name ∈ Handler.requests,
        ∀ other ∈ Handler.notifications,
          utf8 name ≠ utf8 other := by
    decide
  exact hAll name hName other hOther

/- A request is no notification. -/
theorem not_notification_of_isRequest
    {message : Json}
    {name : String}
    (hRequest : message.IsRequest)
    (hName : name ∈ Handler.notifications) :
    ¬message.HasMethod name := by
  intro hMethod
  rcases hRequest with
    ⟨other, hOther, hHas⟩ | ⟨method, hText, hUnknown⟩ | ⟨_, hNone⟩
  · exact
      ne_of_mem_requests hOther hName (eq_of_hasMethod hHas hMethod)
  · exact
      hUnknown name (List.mem_append_right _ hName)
        (Option.some.inj (hText.symm.trans hMethod))
  · rw [hMethod] at hNone
    cases hNone

/- A request has a method. -/
theorem get?_ne_none_of_isRequest
    {message : Json}
    (hRequest : message.IsRequest) :
    message.get? "method" ≠ none := by
  rcases hRequest with
    ⟨name, _, hMethod⟩ | ⟨method, hMethod, _⟩ | ⟨hSome, _⟩
  · exact isSome_of_hasMethod hMethod
  · rw [get?_of_text? hMethod]
    exact Option.some_ne_none _
  · intro hNone
    rw [hNone] at hSome
    cases hSome

/- The frame of an answer bears the `id` of the message. -/
theorem id_ofMessage
    {message id : Json}
    (hId : message.get? "id" = some id) :
    (Recipient.ofMessage message).id = id := by
  rw [Recipient.id, Recipient.ofMessage, hId]
  rfl

/- A request with an `id` is replied to by one frame, with its `id`. -/
theorem exists_frame_of_replied
    {message id : Json}
    {frames : List Json}
    (hId : message.get? "id" = some id)
    (hRequest : message.IsRequest)
    (hReplied : message.Replied frames) :
    ∃ frame,
      frames = [frame] ∧
        frame.get? "method" = none ∧ frame.get? "id" = some id := by
  have hResult :
      ∀ result : Json,
        (Handler.resultFrame (Recipient.ofMessage message)
          result).get? "id" = some id :=
    fun _ => congrArg some (id_ofMessage hId)
  cases hReplied with
  | refused _ =>
      rw [Recipient.refusal, Recipient.ofMessage, hId]
      exact ⟨_, rfl, rfl, rfl⟩
  | returned hReturns =>
      cases hReturns with
      | noMethod hMethod =>
          exact absurd hMethod (get?_ne_none_of_isRequest hRequest)
      | notified hName hMethod =>
          exact
            absurd hMethod
              (not_notification_of_isRequest hRequest hName)
      | ready _ => exact ⟨_, rfl, rfl, hResult _⟩
      | shutDown _ => exact ⟨_, rfl, rfl, hResult _⟩
      | lookedUp _ => exact ⟨_, rfl, rfl, hResult _⟩
      | unknown _ =>
          rw [hId]
          exact ⟨_, rfl, rfl, rfl⟩

/- A message that is not answered is replied to by no frame. -/
theorem eq_nil_of_replied
    {message : Json}
    {frames : List Json}
    (hSilent : message.IsSilent)
    (hReplied : message.Replied frames) :
    frames = [] := by
  have hNo :
      ∀ name ∈ Handler.requests, ¬message.HasMethod name := by
    intro name hName hMethod
    rcases hSilent with
      hNone | ⟨_, ⟨other, hOther, hHas⟩ | ⟨method, hText, hUnknown⟩⟩
    · exact isSome_of_hasMethod hMethod hNone
    · exact
        ne_of_mem_requests hName hOther
          (eq_of_hasMethod hMethod hHas)
    · exact
        hUnknown name (List.mem_append_left _ hName)
          (Option.some.inj (hText.symm.trans hMethod))
  have hLookUp :
      ∀ purpose : Purpose, ¬message.HasMethod purpose.method := by
    intro purpose
    apply hNo
    cases purpose <;> simp [Handler.requests]
  cases hReplied with
  | returned hReturns =>
      cases hReturns with
      | noMethod _ => rfl
      | notified _ _ => rfl
      | ready hMethod =>
          exact absurd hMethod (hNo _ (by simp [Handler.requests]))
      | shutDown hMethod =>
          exact absurd hMethod (hNo _ (by simp [Handler.requests]))
      | lookedUp hMethod => exact absurd hMethod (hLookUp _)
      | unknown hMethod =>
          rcases hSilent with hNone | ⟨hId, _⟩
          · rw [get?_of_text? hMethod.1] at hNone
            cases hNone
          · rw [hId]
            rfl
  | refused hFails =>
      rcases hSilent with hNone | ⟨hId, _⟩
      · rcases hFails with
          ⟨hSome, _⟩ | ⟨_, hMethod⟩ | ⟨_, _, hMethod⟩
        · rw [hNone] at hSome
          cases hSome
        · exact absurd hNone (isSome_of_hasMethod hMethod)
        · exact absurd hNone (isSome_of_hasMethod hMethod)
      · rw [Recipient.refusal, Recipient.ofMessage, hId]
        rfl

end Json

------------------------------------------------------------
-- What the Handling of a Message Comes To
------------------------------------------------------------

/- A method that is not known is refused. -/
theorem Handler.dispatch_of_isUnknown
    {message params : Json}
    {method : Bytes}
    (hUnknown : message.IsUnknown method)
    (files : Files)
    (recipient : Recipient) :
    dispatch files recipient method params =
      refuse recipient method := by
  have hNot :
      ∀ name ∈ requests ++ notifications, method ≠ utf8 name :=
    hUnknown.2
  simp only [requests, notifications, Purpose.method, List.cons_append,
    List.nil_append, List.forall_mem_cons] at hNot
  rcases hNot with
    ⟨hSetUp, hHover, hReport, hShutdown, hReady, hExit, hOpened,
      hChanged, hClosed, hConfigure, _⟩
  unfold dispatch
  rw [if_neg hSetUp, if_neg hReady, if_neg hOpened, if_neg hChanged,
    if_neg hClosed, if_neg hConfigure, if_neg hHover, if_neg hReport,
    if_neg hShutdown, if_neg hExit]

namespace Turn

/- Quiet turns reply nothing. -/
theorem replies_of_quiet
    {before after : Turn}
    (hQuiet : Quiet before after) :
    Replies [] before after := by
  rcases hQuiet.events_eq with ⟨remarks, hEvents⟩
  refine ⟨remarks.map Event.remarked, hEvents, ?_, ?_⟩
  · intro event hEvent
    rcases List.mem_map.mp hEvent with ⟨r, _, hRemark⟩
    rw [← hRemark]
    rfl
  · rw [Session.framesOf_remarked]
    rfl

/- A server that goes on still does after quiet turns. -/
theorem isOver_of_quiet
    {before after : Turn}
    (hQuiet : Quiet before after) :
    after.server.isOver = before.server.isOver :=
  isOver_of_within (within_of_calm (calm_of_quiet hQuiet))

/- What a lookup waits for knows the message that it is for. -/
def AwaitedFor (message : Json) (waiting : Waiting) : Prop :=
  message.HasMethod waiting.purpose.method ∧
    waiting.recipient = Recipient.ofMessage message

/-
  What the handling of a message comes to: it returns and has
  replied, or waits and has not, or fails and has not.
-/
inductive Handled
    (message : Json)
    (before : Turn) : Except HandlerError Unit × Turn → Prop
| returned
    {next : Turn}
    {frames : List Json}
    (hReplies : Replies frames before next)
    (hReturns : message.Returns frames)
    (hWaiting : next.server.waiting = none) :
    Handled message before (.ok (), next)
| waits
    {next : Turn}
    {waiting : Waiting}
    (hReplies : Replies [] before next)
    (hWaiting : next.server.waiting = some waiting)
    (hAwaited : AwaitedFor message waiting) :
    Handled message before (.ok (), next)
| failed
    {next : Turn}
    {e : HandlerError}
    (hReplies : Replies [] before next)
    (hFails : message.MayFail)
    (hWaiting : next.server.waiting = none)
    (hOver : next.server.isOver = before.server.isOver) :
    Handled message before (.error e, next)

variable {files : Files}
variable {message : Json}
variable {turn next : Turn}

/- What a lookup for the message asks for is for its sake. -/
theorem awaitedFor_of_asked
    {purpose : Purpose}
    {request : Request}
    {waiting : Waiting}
    (hMethod : message.HasMethod purpose.method)
    (hAsked :
      Asked (Recipient.ofMessage message) purpose turn request
        waiting) :
    AwaitedFor message waiting := by
  cases hAsked with
  | selection inquiry _ hRecipient hPurpose =>
      refine ⟨?_, hRecipient⟩
      rw [Waiting.purpose, hPurpose]
      exact hMethod
  | gloss _ hPurpose _ =>
      refine ⟨?_, rfl⟩
      rw [hPurpose] at hMethod
      exact hMethod

/- A lookup for the message. -/
theorem handled_of_lookedUp
    {purpose : Purpose}
    {rounds : Nat}
    {Result : Json → Prop}
    {outcome : Except HandlerError Unit × Turn}
    (hWaiting : turn.server.waiting = none)
    (hMethod : message.HasMethod purpose.method)
    (hLookedUp :
      LookedUp (Recipient.ofMessage message) purpose rounds Result turn
        outcome) :
    Handled message turn outcome := by
  cases hLookedUp with
  | answered hQuiet hResult =>
      refine
        .returned
          (replies_trans (replies_of_quiet hQuiet)
            (replies_sent ?_ _))
          (.lookedUp hMethod) ?_
      · rfl
      · exact (waiting_of_quiet hQuiet).trans hWaiting
  | @asked next request waiting hQuiet hAsked hRounds =>
      have hSent :
          Replies [] next (next.askingFor request waiting) :=
        replies_trans
          (replies_trans (replies_update next _)
            (replies_requested rfl _))
          (replies_update _ _)
      apply
        Handled.waits (replies_trans (replies_of_quiet hQuiet) hSent)
          rfl
      exact awaitedFor_of_asked hMethod hAsked
  | failed hQuiet =>
      apply Handled.failed (replies_of_quiet hQuiet)
      · exact Or.inr (Or.inl ⟨purpose, hMethod⟩)
      · exact (waiting_of_quiet hQuiet).trans hWaiting
      · exact isOver_of_quiet hQuiet
  | @unsent next _ _ hQuiet _ _ =>
      apply
        Handled.failed
          (replies_trans (replies_of_quiet hQuiet)
            (replies_update next _))
      · exact Or.inr (Or.inl ⟨purpose, hMethod⟩)
      · exact (waiting_of_quiet hQuiet).trans hWaiting
      · have hSame := isOver_of_quiet hQuiet
        exact hSame

/- A quiet handler of a notification. -/
theorem handled_of_quiet
    {name : String}
    {h : Handler Unit}
    (hWaiting : turn.server.waiting = none)
    (hName : name ∈ Handler.notifications)
    (hMethod : message.HasMethod name)
    (hKeeps : Handler.Keeps Quiet h) :
    Handled message turn (h.runFrom turn) := by
  have hQuiet := hKeeps turn
  have hNone := (waiting_of_quiet hQuiet).trans hWaiting
  cases hRun : h.runFrom turn with
  | mk result next =>
      rw [hRun] at hQuiet hNone
      have hReplies := replies_of_quiet hQuiet
      cases result with
      | ok _ =>
          exact .returned hReplies (.notified hName hMethod) hNone
      | error e =>
          exact
            .failed hReplies (Or.inr (Or.inr ⟨name, hName, hMethod⟩))
              hNone (isOver_of_quiet hQuiet)

/- A frame for the message that is sent as the only act. -/
theorem handled_send
    {frame : Json}
    (hWaiting : turn.server.waiting = none)
    (hPrintable : frame.isPrintable = true)
    (hFrame : frame.get? "method" = none)
    (hReturns : message.Returns [frame]) :
    Handled message turn ((Handler.send frame).runFrom turn) := by
  rw [Handler.runFrom_send_of_isPrintable hPrintable]
  exact .returned (replies_sent hFrame turn) hReturns hWaiting

/- Something may be noted before, or the server changed. -/
theorem handled_of_replies
    {outcome : Except HandlerError Unit × Turn}
    (hReplies : Replies [] turn next)
    (hOver : next.server.isOver = turn.server.isOver)
    (hHandled : Handled message next outcome) :
    Handled message turn outcome := by
  cases hHandled with
  | @returned _ frames hLater hReturns hWaiting =>
      have hAll := replies_trans hReplies hLater
      rw [List.append_nil] at hAll
      exact .returned hAll hReturns hWaiting
  | waits hLater hWaiting hAwaited =>
      exact
        .waits (replies_trans hReplies hLater) hWaiting hAwaited
  | failed hLater hFails hWaiting hSame =>
      exact
        .failed (replies_trans hReplies hLater) hFails hWaiting
          (hSame.trans hOver)

/- The server may be changed before. -/
theorem handled_update_bind
    {f : Server → Server}
    {k : Unit → Handler Unit}
    (hOver : ∀ s : Server, (f s).isOver = s.isOver)
    (hHandled :
      Handled message (turn.update f)
        ((k ()).runFrom (turn.update f))) :
    Handled message turn ((Handler.update f >>= k).runFrom turn) :=
  handled_of_replies (replies_update turn f) (hOver turn.server)
    hHandled

/- A remark may be made before. -/
theorem handled_remark_bind
    {r : Diagnostic}
    {k : Unit → Handler Unit}
    (hHandled :
      Handled message (turn.note (.remarked r))
        ((k ()).runFrom (turn.note (.remarked r)))) :
    Handled message turn ((Handler.remark r >>= k).runFrom turn) :=
  handled_of_replies (replies_remark turn r) rfl hHandled

end Turn

/- An answer to a message that can be printed can be printed. -/
theorem Json.isPrintable_resultFrame
    {message result : Json}
    (hMessage : message.isPrintable = true)
    (hResult : result.isPrintable = true) :
    (Handler.resultFrame (Recipient.ofMessage message)
      result).isPrintable = true := by
  have hId :
      (Recipient.ofMessage message).id.isPrintable = true := by
    rw [Recipient.id, Recipient.ofMessage]
    cases hGet : message.get? "id" with
    | none => rfl
    | some id => exact isPrintable_of_get? hMessage hGet
  apply isPrintable_ofMembers
  simp only [List.map, areMembersPrintable, hId, hResult]
  rfl

/- So can the refusal of a method that is not known. -/
theorem Json.isPrintable_unknown
    {message id : Json}
    {method : Bytes}
    (hMessage : message.isPrintable = true)
    (hId : message.get? "id" = some id)
    (hMethod : message.text? "method" = some method) :
    (Handler.errorFrame id Handler.methodNotFound
      (utf8 "Method not found: " ++ method)).isPrintable = true := by
  have hPrintable := isPrintable_of_get? hMessage hId
  have hName : Utf8.isValid method = true :=
    isPrintable_of_get? hMessage (get?_of_text? hMethod)
  have hText :
      Utf8.isValid (utf8 "Method not found: " ++ method) = true := by
    apply Utf8.isValid_append _ hName
    decide
  have hError :
      (Json.record
        [ ("code", .int Handler.methodNotFound),
          ("message",
            .text (utf8 "Method not found: " ++ method))
        ]).isPrintable = true := by
    apply isPrintable_ofMembers
    simp only [List.map, areMembersPrintable, isPrintable, hText]
    rfl
  apply isPrintable_ofMembers
  simp only [List.map, areMembersPrintable, hPrintable, hError]
  rfl

namespace Turn

variable {files : Files}
variable {message : Json}
variable {turn next : Turn}

/- The first request sets the server up and is answered. -/
theorem handled_setUp
    (hWaiting : turn.server.waiting = none)
    (hPrintable : message.isPrintable = true)
    (hMethod : message.HasMethod "initialize") :
    Handled message turn
      ((Handler.setUp (Recipient.ofMessage message)
        message.params).runFrom turn) := by
  unfold Handler.setUp
  refine handled_update_bind (fun _ => rfl) ?_
  rw [Handler.runFrom_server_bind]
  refine handled_remark_bind ?_
  refine handled_send ?_ ?_ rfl (.ready hMethod)
  · exact hWaiting
  · exact Json.isPrintable_resultFrame hPrintable rfl

/- A shutdown is noted and answered. -/
theorem handled_shutDown
    (hWaiting : turn.server.waiting = none)
    (hPrintable : message.isPrintable = true)
    (hMethod : message.HasMethod "shutdown")
    (files : Files) :
    Handled message turn
      ((Handler.handle files message).runFrom turn) := by
  rw [Handler.handle_of_isShutdown (by simpa [Json.isShutdown])]
  refine handled_update_bind (fun _ => rfl) ?_
  refine handled_send ?_ ?_ rfl (.shutDown hMethod)
  · exact hWaiting
  · exact Json.isPrintable_resultFrame hPrintable rfl

/- A method that is not known is refused. -/
theorem handled_unknown
    {method : Bytes}
    (hWaiting : turn.server.waiting = none)
    (hPrintable : message.isPrintable = true)
    (hMethod : message.IsUnknown method) :
    Handled message turn
      ((Handler.refuse (Recipient.ofMessage message)
        method).runFrom turn) := by
  have hReturns := Json.Returns.unknown hMethod
  unfold Handler.refuse Recipient.ofMessage
  cases hId : message.get? "id" with
  | none =>
      rw [hId] at hReturns
      exact .returned (replies_refl turn) hReturns hWaiting
  | some id =>
      rw [hId] at hReturns
      apply handled_send hWaiting _ rfl hReturns
      exact Json.isPrintable_unknown hPrintable hId hMethod.1

/- A notification is handled. -/
theorem handled_notification
    {name : String}
    (hWaiting : turn.server.waiting = none)
    (hName : name ∈ Handler.notifications)
    (hMethod : message.HasMethod name)
    (files : Files) :
    Handled message turn
      ((Handler.handle files message).runFrom turn) := by
  rw [Handler.handle_of_method hMethod]
  have hQuiet :
      ∀ {h : Handler Unit},
        Handler.Keeps Quiet h → Handled message turn (h.runFrom turn) :=
    fun hKeeps => handled_of_quiet hWaiting hName hMethod hKeeps
  have hCases := hName
  simp only [Handler.notifications, List.mem_cons, List.not_mem_nil,
    or_false] at hCases
  rcases hCases with
    hSame | hSame | hSame | hSame | hSame | hSame
  · rw [hSame]
    exact hQuiet (Handler.quiet_pure ())
  · rw [hSame]
    exact
      .returned (replies_update turn _) (.notified hName hMethod)
        hWaiting
  · rw [hSame]
    exact hQuiet (Handler.quiet_opened message.params)
  · rw [hSame]
    exact hQuiet (Handler.quiet_changed message.params)
  · rw [hSame]
    exact hQuiet (Handler.quiet_closed message.params)
  · rw [hSame]
    exact hQuiet (Handler.quiet_configure message.params)

/- A message that asks for a lookup is handled. -/
theorem handled_lookUp
    {purpose : Purpose}
    (hWaiting : turn.server.waiting = none)
    (hMethod : message.HasMethod purpose.method)
    (files : Files) :
    Handled message turn
      ((Handler.handle files message).runFrom turn) := by
  rw [Handler.handle_of_lookUp hMethod]
  exact
    handled_of_lookedUp hWaiting hMethod
      (Handler.looksUp_lookUp files _ purpose _ turn)

/- A message without a method, or whose method is no text. -/
theorem handled_nameless
    (hWaiting : turn.server.waiting = none)
    (hMethod : message.text? "method" = none)
    (files : Files) :
    Handled message turn
      ((Handler.handle files message).runFrom turn) := by
  unfold Handler.handle
  cases hValue : message.get? "method" with
  | none =>
      exact
        .returned (replies_remark turn _) (.noMethod hValue) hWaiting
  | some value =>
      have hUnnamed : message.IsUnnamed := by
        refine ⟨?_, hMethod⟩
        rw [hValue]
        rfl
      cases value with
      | text s => simp [Json.text?, hValue, Json.asText?] at hMethod
      | _ =>
          exact
            .failed (replies_refl turn) (Or.inl hUnnamed) hWaiting rfl

/- Any message is handled. -/
theorem handled_handle
    (hWaiting : turn.server.waiting = none)
    (hPrintable : message.isPrintable = true)
    (files : Files) :
    Handled message turn
      ((Handler.handle files message).runFrom turn) := by
  cases hMethod : message.text? "method" with
  | none => exact handled_nameless hWaiting hMethod files
  | some method =>
      by_cases hKnown :
          ∃ name ∈ Handler.requests ++ Handler.notifications,
            method = utf8 name
      · rcases hKnown with ⟨name, hName, hSame⟩
        have hHas : message.HasMethod name := by
          rw [Json.HasMethod, hMethod, hSame]
        rcases List.mem_append.mp hName with hRequest | hNotification
        · simp only [Handler.requests, List.mem_cons,
            List.not_mem_nil, or_false] at hRequest
          rcases hRequest with hIs | hIs | hIs | hIs
          · rw [hIs] at hHas
            rw [Handler.handle_of_method hHas]
            exact handled_setUp hWaiting hPrintable hHas
          · rw [hIs] at hHas
            exact handled_lookUp hWaiting hHas files
          · rw [hIs] at hHas
            exact handled_lookUp hWaiting hHas files
          · rw [hIs] at hHas
            exact handled_shutDown hWaiting hPrintable hHas files
        · exact handled_notification hWaiting hNotification hHas files
      · have hUnknown : message.IsUnknown method := by
          refine ⟨hMethod, ?_⟩
          intro name hName hSame
          exact hKnown ⟨name, hName, hSame⟩
        rw [Handler.handle_of_method hMethod,
          Handler.dispatch_of_isUnknown hUnknown]
        exact handled_unknown hWaiting hPrintable hUnknown

/- So is what was waited for. -/
theorem handled_resume
    {waiting : Waiting}
    (hAwaited : AwaitedFor message waiting)
    (result? : Option Json)
    (turn : Turn) :
    Handled message turn
      ((Handler.resume waiting result?).runFrom turn) := by
  rcases hAwaited with ⟨hMethod, hRecipient⟩
  have hLooksUp :=
    Handler.looksUp_proceed result? waiting turn.unwaiting
  rw [hRecipient] at hLooksUp
  unfold Handler.resume
  refine handled_update_bind (fun _ => rfl) ?_
  exact handled_of_lookedUp rfl hMethod hLooksUp

end Turn

end Marginalia

import Mathlib.Data.List.Basic
import Marginalia.Proofs.Server.Handling
import Marginalia.Proofs.Server.Order

/-
  This file proves that every request is answered once, in the
  order in which the requests arrive, and that no notification is
  answered.

  Between the steps of a session all messages are settled but
  the one that the server waits for the sake of, and nothing was
  sent in reply to that one.  So the step that goes on with it
  may settle it by the one reply that its handling comes to, or
  by a refusal if that fails.

  Key definitions include:
    * `Turn.Settles`
    * `Turn.Fails`
    * `Session.replies`, `Session.Reaches`
  The main statements are:
    * `Turn.settles_of_step`
    * `Turn.refused_of_fails`
    * `Session.run_answers`
-/

namespace Marginalia

------------------------------------------------------------
-- What Holds Between Steps
------------------------------------------------------------

/- What was sent in reply to the message of the exchange fits it. -/
def Exchange.Settled (x : Exchange) : Prop :=
  x.message.Replied x.replies

/- All frames were sent for the message of some exchange. -/
def Session.Exchanged (events : List Event) : Prop :=
  framesOf events = (exchanges events).flatMap Exchange.sent

/- Outputs are sent for the message of the latest exchange. -/
theorem Session.exchanged_append
    {news events : List Event}
    {x : Exchange}
    {earlier : List Exchange}
    (hExchanges : exchanges events = x :: earlier)
    (hExchanged : Exchanged events)
    (hNews : ∀ event ∈ news, event.isOutput = true) :
    Exchanged (news ++ events) := by
  rw [Exchanged, exchanges_append hExchanges news hNews,
    framesOf_append, hExchanged, hExchanges, List.flatMap_cons,
    List.flatMap_cons, List.append_assoc]

namespace Turn

/-
  All exchanges are settled, but for the latest one while the
  server waits: nothing was sent in reply to its message yet, and
  the server waits for its sake.
-/
structure Settles (turn : Turn) : Prop where
  exchanged : Session.Exchanged turn.events
  settled :
    turn.server.waiting = none →
      ∀ x ∈ Session.exchanges turn.events, x.Settled
  pending :
    ∀ waiting ∈ turn.server.waiting,
      ∃ x earlier,
        Session.exchanges turn.events = x :: earlier ∧
          (∀ y ∈ earlier, y.Settled) ∧
            AwaitedFor x.message waiting ∧ x.replies = []

variable {files : Files}
variable {turn next : Turn}
variable {x : Exchange}
variable {earlier : List Exchange}

/- Replies settle the latest exchange if they fit its message. -/
theorem settles_of_replied
    {frames : List Json}
    (hExchanges : Session.exchanges turn.events = x :: earlier)
    (hEarlier : ∀ y ∈ earlier, y.Settled)
    (hNone : x.replies = [])
    (hExchanged : Session.Exchanged turn.events)
    (hReplies : Replies frames turn next)
    (hWaiting : next.server.waiting = none)
    (hReplied : x.message.Replied frames) :
    Settles next := by
  rcases exchanges_of_replies hReplies hExchanges with
    ⟨sent, hSent, hAll⟩
  rcases hReplies with ⟨news, hNews, hOutputs, _⟩
  refine ⟨?_, ?_, ?_⟩
  · rw [hNews]
    exact Session.exchanged_append hExchanges hExchanged hOutputs
  · intro _ y hMember
    rw [hSent] at hMember
    rcases List.mem_cons.mp hMember with hSame | hOld
    · rw [hSame, Exchange.Settled, hAll, hNone, List.append_nil]
      exact hReplied
    · exact hEarlier y hOld
  · intro waiting hMember
    rw [hWaiting] at hMember
    cases hMember

/- A handling that fails refuses its message, and the server goes on. -/
theorem refused_of_handled
    {e : HandlerError}
    {after : Turn}
    (hExchanges : Session.exchanges turn.events = x :: earlier)
    (hNone : x.replies = [])
    (hHandled : Handled x.message turn (.error e, after))
    (hGoesOn : turn.server.isOver = false) :
    let next := after.refuse (Recipient.ofMessage x.message) e
    ∃ y earlier,
      Session.exchanges next.events = y :: earlier ∧
        y.replies = (Recipient.ofMessage y.message).refusal e ∧
          next.server.waiting = none ∧
            next.server.isOver = false := by
  intro next
  cases hHandled with
  | failed hReplies hFails hWaiting hOver =>
      have hRefused :=
        replies_refuse after (Recipient.ofMessage x.message) e
      have hServer :=
        server_refuse after (Recipient.ofMessage x.message) e
      rcases
          exchanges_of_replies (replies_trans hReplies hRefused)
            hExchanges with
        ⟨sent, hSent, hAll⟩
      refine ⟨_, earlier, hSent, ?_, ?_, ?_⟩
      · rw [hAll, hNone, List.append_nil, List.append_nil]
      · rw [hServer]
        exact hWaiting
      · rw [hServer]
        exact hOver.trans hGoesOn

/- An attempt for the message of the latest exchange. -/
theorem settles_attempt
    {h : Handler Unit}
    (hExchanges : Session.exchanges turn.events = x :: earlier)
    (hEarlier : ∀ y ∈ earlier, y.Settled)
    (hNone : x.replies = [])
    (hExchanged : Session.Exchanged turn.events)
    (hHandled : Handled x.message turn (h.runFrom turn)) :
    Settles (turn.attempt (Recipient.ofMessage x.message) h) := by
  unfold attempt
  cases hRun : h.runFrom turn with
  | mk result after =>
      rw [hRun] at hHandled
      cases hHandled with
      | returned hReplies hReturns hWaiting =>
          exact
            settles_of_replied hExchanges hEarlier hNone hExchanged
              hReplies hWaiting (.returned hReturns)
      | @failed _ e hReplies hFails hWaiting _ =>
          have hRefused :=
            replies_refuse after (Recipient.ofMessage x.message) e
          have hBoth := replies_trans hReplies hRefused
          rw [List.append_nil] at hBoth
          apply
            settles_of_replied hExchanges hEarlier hNone hExchanged
              hBoth _ (.refused hFails)
          rw [server_refuse]
          exact hWaiting
      | waits hReplies hWaiting hAwaited =>
          rcases exchanges_of_replies hReplies hExchanges with
            ⟨sent, hSent, hAll⟩
          rcases hReplies with ⟨news, hNews, hOutputs, _⟩
          refine ⟨?_, ?_, ?_⟩
          · dsimp only
            rw [hNews]
            exact
              Session.exchanged_append hExchanges hExchanged hOutputs
          · intro hFree
            dsimp only at hFree
            rw [hWaiting] at hFree
            cases hFree
          · intro waiting hMember
            dsimp only at hMember
            rw [hWaiting] at hMember
            rw [← Option.some.inj hMember]
            refine ⟨_, earlier, hSent, hEarlier, hAwaited, ?_⟩
            rw [hAll, hNone]
            rfl

------------------------------------------------------------
-- Steps
------------------------------------------------------------

/-
  What a step attempts fails with an error: the handling of a
  message that is taken up, or that of one in progress once what
  it waits for is there, or will not come, or once something
  cannot be read.
-/
inductive Fails
    (files : Files)
    (arrived : Incoming → Prop)
    (turn : Turn)
    (e : HandlerError) : Turn → Prop
| takeUp
    {message : Json}
    {after : Turn}
    (hArrived : arrived (.message message))
    (hWaiting : turn.server.waiting = none)
    (hGoesOn : turn.server.isOver = false)
    (hRun :
      (Handler.handle files message).runFrom
        (turn.note (.handled message)) = (.error e, after)) :
    Fails files arrived turn e
      (after.refuse (Recipient.ofMessage message) e)
| answer
    {message : Json}
    {waiting : Waiting}
    {after : Turn}
    (hWaiting : turn.server.waiting = some waiting)
    (hRun :
      (Handler.resume waiting (resultOf? message)).runFrom
        ((turn.note (.answered message)).noteFailure waiting
          message) = (.error e, after)) :
    Fails files arrived turn e (after.refuse waiting.recipient e)
| giveUp
    {waiting : Waiting}
    {after : Turn}
    (hWaiting : turn.server.waiting = some waiting)
    (hRun :
      (Handler.resume waiting none).runFrom turn =
        (.error e, after)) :
    Fails files arrived turn e (after.refuse waiting.recipient e)
| interrupt
    {waiting : Waiting}
    {fault : ReadFault}
    (hArrived : arrived (.unreadable fault))
    (hWaiting : turn.server.waiting = some waiting)
    (hFault : e = .unreadable fault) :
    Fails files arrived turn e
      (turn.unwaiting.refuse waiting.recipient e)

/- Answers and remarks are no frames. -/
theorem exchanged_answer
    {waiting : Waiting}
    (hExchanges : Session.exchanges turn.events = x :: earlier)
    (hExchanged : Session.Exchanged turn.events)
    (message : Json) :
    Session.Exchanged
      ((turn.note (.answered message)).noteFailure waiting
        message).events := by
  have hFrames :
      Session.framesOf
          ((turn.note (.answered message)).noteFailure waiting
            message).events =
        Session.framesOf (turn.note (.answered message)).events :=
    framesOf_of_quiet (quiet_noteFailure _ waiting message)
  have hNoFrame :
      Session.framesOf (turn.note (.answered message)).events =
        Session.framesOf turn.events := rfl
  rw [Session.Exchanged, hFrames, hNoFrame,
    exchanges_answer hExchanges, hExchanged, hExchanges]
  rfl

/- An interruption fails the message in progress. -/
theorem handled_interrupt
    {message : Json}
    {waiting : Waiting}
    (hAwaited : AwaitedFor message waiting)
    (turn : Turn)
    (e : HandlerError) :
    Handled message turn.unwaiting (.error e, turn.unwaiting) :=
  .failed (replies_refl turn.unwaiting)
    (Or.inr (Or.inl ⟨waiting.purpose, hAwaited.1⟩)) rfl rfl

variable {arrived : Incoming → Prop}

/- Every step settles what it handles. -/
theorem settles_of_step
    (hPrintable :
      ∀ message,
        arrived (.message message) → message.isPrintable = true)
    (hSettles : Settles turn)
    (hStep : Step files arrived turn next) :
    Settles next := by
  cases hStep with
  | @takeUp message hArrived hWaiting hGoesOn =>
      apply
        settles_attempt (exchanges_handled turn message)
          (hSettles.settled hWaiting) rfl
      · exact hSettles.exchanged
      · have hStart :
            (turn.note (.handled message)).server.waiting = none :=
          hWaiting
        exact
          handled_handle hStart (hPrintable message hArrived) files
  | @answer message waiting hArrived hWaiting hAnswered =>
      rcases hSettles.pending waiting hWaiting with
        ⟨x, earlier, hExchanges, hEarlier, hAwaited, hNone⟩
      rw [hAwaited.2]
      apply
        settles_attempt (exchanges_answer hExchanges waiting message)
          hEarlier hNone
      · exact exchanged_answer hExchanges hSettles.exchanged message
      · exact handled_resume hAwaited (resultOf? message) _
  | @giveUp waiting hWaiting hClosed =>
      rcases hSettles.pending waiting hWaiting with
        ⟨x, earlier, hExchanges, hEarlier, hAwaited, hNone⟩
      rw [hAwaited.2]
      exact
        settles_attempt hExchanges hEarlier hNone hSettles.exchanged
          (handled_resume hAwaited none turn)
  | @interrupt waiting fault hArrived hWaiting =>
      rcases hSettles.pending waiting hWaiting with
        ⟨x, earlier, hExchanges, hEarlier, hAwaited, hNone⟩
      have hAttempt :
          turn.unwaiting.refuse waiting.recipient
              (.unreadable fault) =
            turn.unwaiting.attempt waiting.recipient
              (throw (.unreadable fault)) :=
        rfl
      have hStart :
          Session.exchanges turn.unwaiting.events = x :: earlier :=
        hExchanges
      rw [hAttempt, hAwaited.2]
      apply settles_attempt hStart hEarlier hNone hSettles.exchanged
      rw [Handler.runFrom_throw]
      exact handled_interrupt hAwaited turn (.unreadable fault)
  | enqueue hQueue =>
      exact ⟨hSettles.exchanged, hSettles.settled, hSettles.pending⟩
  | close =>
      exact ⟨hSettles.exchanged, hSettles.settled, hSettles.pending⟩
  | crash hArrived hWaiting =>
      exact ⟨hSettles.exchanged, hSettles.settled, hSettles.pending⟩
  | remark r =>
      have hSame :
          Session.exchanges (turn.note (.remarked r)).events =
            Session.exchanges turn.events :=
        Session.exchanges_remarked turn.events r
      refine ⟨?_, ?_, ?_⟩
      · rw [Session.Exchanged, hSame]
        exact hSettles.exchanged
      · rw [hSame]
        exact hSettles.settled
      · rw [hSame]
        exact hSettles.pending

/- So do all steps. -/
theorem settles_of_steps
    (hPrintable :
      ∀ message,
        arrived (.message message) → message.isPrintable = true)
    (hSettles : Settles turn)
    (hSteps : Steps files arrived turn next) :
    Settles next := by
  induction hSteps with
  | refl => exact hSettles
  | tail _ hStep ih => exact settles_of_step hPrintable ih hStep

/- A session begins with nothing to settle. -/
theorem settles_create
    (engine : BoundedEngine)
    (descriptors : List Descriptor) :
    Settles ⟨Server.create engine descriptors, []⟩ := by
  refine ⟨rfl, ?_, ?_⟩
  · intro _ x hMember
    cases hMember
  · intro waiting hMember
    cases hMember

/-
  Whatever fails in the handling of a message, the message is
  refused and nothing else is sent in reply to it.  The server
  goes on.
-/
theorem refused_of_fails
    {e : HandlerError}
    (hPrintable :
      ∀ message,
        arrived (.message message) → message.isPrintable = true)
    (hSound : Sound arrived turn)
    (hSettles : Settles turn)
    (hFails : Fails files arrived turn e next) :
    ∃ x earlier,
      Session.exchanges next.events = x :: earlier ∧
        x.replies = (Recipient.ofMessage x.message).refusal e ∧
          next.server.waiting = none ∧
            next.server.isOver = false := by
  cases hFails with
  | @takeUp message after hArrived hWaiting hGoesOn hRun =>
      have hStart :
          (turn.note (.handled message)).server.waiting = none :=
        hWaiting
      have hHandled :=
        handled_handle hStart (hPrintable message hArrived) files
      rw [hRun] at hHandled
      exact
        refused_of_handled (exchanges_handled turn message) rfl
          hHandled hGoesOn
  | @answer message waiting after hWaiting hRun =>
      rcases hSettles.pending waiting hWaiting with
        ⟨x, earlier, hExchanges, hEarlier, hAwaited, hNone⟩
      have hHandled :=
        handled_resume hAwaited (resultOf? message)
          ((turn.note (.answered message)).noteFailure waiting message)
      rw [hRun] at hHandled
      rw [hAwaited.2]
      apply
        refused_of_handled
          (exchanges_answer hExchanges waiting message) hNone hHandled
      rw [server_noteFailure]
      have hGoesOn := goesOn_of_waiting hSound hWaiting
      exact hGoesOn
  | @giveUp waiting after hWaiting hRun =>
      rcases hSettles.pending waiting hWaiting with
        ⟨x, earlier, hExchanges, hEarlier, hAwaited, hNone⟩
      have hHandled := handled_resume hAwaited none turn
      rw [hRun] at hHandled
      rw [hAwaited.2]
      exact
        refused_of_handled hExchanges hNone hHandled
          (goesOn_of_waiting hSound hWaiting)
  | @interrupt waiting fault hArrived hWaiting hFault =>
      rcases hSettles.pending waiting hWaiting with
        ⟨x, earlier, hExchanges, hEarlier, hAwaited, hNone⟩
      have hHandled := handled_interrupt hAwaited turn e
      have hStart :
          Session.exchanges turn.unwaiting.events = x :: earlier :=
        hExchanges
      have hGoesOn := goesOn_of_waiting hSound hWaiting
      rw [hAwaited.2]
      exact refused_of_handled hStart hNone hHandled hGoesOn

end Turn

------------------------------------------------------------
-- Sessions
------------------------------------------------------------

namespace Session

/- The frames that were sent and are no requests, in order. -/
def replies (turn : Turn) : List Json :=
  (frames turn).filter (fun frame => !Exchange.isRequest frame)

/- The session comes to the turn in some steps. -/
def Reaches
    (engine : BoundedEngine)
    (files : Files)
    (descriptors : List Descriptor)
    (incoming : List Incoming)
    (turn : Turn) : Prop :=
  Turn.Steps files (fun item => item ∈ incoming)
    ⟨Server.create engine descriptors, []⟩ turn

/- The messages that were taken up are those of the exchanges. -/
theorem handled_eq_exchanges
    (turn : Turn) :
    handled turn =
      (exchanges turn.events).reverse.map Exchange.message := by
  have hLatest :
      ∀ events : List Event,
        events.filterMap Event.message? =
          (exchanges events).map Exchange.message := by
    intro events
    induction events with
    | nil => rfl
    | cons event events ih =>
        cases event with
        | handled message =>
            rw [exchanges, List.map_cons, ← ih]
            rfl
        | answered message =>
            have hSame :
                (exchanges events).map Exchange.message =
                  ((exchanges events).modifyHead
                    (Exchange.add (.answered message))).map
                      Exchange.message := by
              cases exchanges events <;> rfl
            rw [exchanges, ← hSame, ← ih]
            rfl
        | sent frame =>
            have hSame :
                (exchanges events).map Exchange.message =
                  ((exchanges events).modifyHead
                    (Exchange.add (.sent frame))).map
                      Exchange.message := by
              cases exchanges events <;> rfl
            rw [exchanges, ← hSame, ← ih]
            rfl
        | remarked r =>
            rw [exchanges_remarked, ← ih]
            rfl
  rw [handled, List.filterMap_reverse, hLatest, List.map_reverse]

/- Without answers there are none in any exchange. -/
theorem answers_eq_nil_of_mem
    {turn : Turn}
    (hNone : answers turn = [])
    {x : Exchange}
    (hMember : x ∈ exchanges turn.events) :
    x.answers = [] := by
  have hAll :
      ∀ events : List Event,
        events.filterMap Event.answer? = [] →
          ∀ x ∈ exchanges events, x.answers = [] := by
    intro events
    induction events with
    | nil =>
        intro _ x hMember
        cases hMember
    | cons event events ih =>
        intro hNone
        cases event with
        | handled message =>
            intro x hMember
            rcases List.mem_cons.mp hMember with hSame | hEarlier
            · rw [hSame]
            · exact ih hNone x hEarlier
        | answered message => cases hNone
        | sent frame =>
            have hEarlier := ih hNone
            rw [exchanges]
            cases hExchanges : exchanges events with
            | nil =>
                intro x hMember
                cases hMember
            | cons latest earlier =>
                rw [hExchanges] at hEarlier
                intro x hMember
                rcases List.mem_cons.mp hMember with hSame | hRest
                · rw [hSame]
                  exact hEarlier latest List.mem_cons_self
                · exact hEarlier x (List.mem_cons_of_mem _ hRest)
        | remarked r =>
            rw [exchanges_remarked]
            exact ih hNone
  rw [answers, List.filterMap_reverse, List.reverse_eq_nil_iff]
    at hNone
  exact hAll turn.events hNone x hMember

/- At most one frame is sent in reply to a message. -/
theorem reverse_replies
    {x : Exchange}
    (hSettled : x.Settled) :
    x.replies.reverse = x.replies := by
  have hRefusal :
      ∀ (recipient : Recipient) (e : HandlerError),
        (recipient.refusal e).reverse = recipient.refusal e := by
    intro recipient e
    rw [Recipient.refusal]
    cases recipient.id? <;> rfl
  unfold Exchange.Settled at hSettled
  generalize x.replies = frames at hSettled
  cases hSettled with
  | refused _ => exact hRefusal _ _
  | returned hReturns =>
      cases hReturns with
      | unknown _ => cases x.message.get? "id" <;> rfl
      | _ => rfl

/-
  The replies are sent in the order in which the messages are
  taken up.
-/
theorem replies_eq_exchanges
    {turn : Turn}
    (hSettles : turn.Settles)
    (hWaiting : turn.server.waiting = none) :
    replies turn =
      (exchanges turn.events).reverse.flatMap Exchange.replies := by
  have hExchanged := hSettles.exchanged
  rw [Exchanged] at hExchanged
  rw [replies, frames_eq_reverse, hExchanged, List.filter_reverse,
    List.filter_flatMap, List.reverse_flatMap]
  apply List.flatMap_congr
  intro x hMember
  exact
    reverse_replies
      (hSettles.settled hWaiting x (List.mem_reverse.mp hMember))

/-
  All messages that arrive and are no answers are taken up, in
  order, up to the first exit, or to something that cannot be
  read and finds the server idle.
-/
theorem exists_arrivals_run
    (engine : BoundedEngine)
    (files : Files)
    (descriptors : List Descriptor)
    (incoming : List Incoming) :
    let start : Turn := ⟨Server.create engine descriptors, []⟩
    let turn := run files start.server incoming
    ∃ (before after : List Incoming) (arrivals : List Arrival),
      incoming = before ++ after ∧
        (after = [] ∧ turn.server.crashed = false ∨
          ∃ fault rest,
            after = .unreadable fault :: rest ∧
              (start.takeIn files before).Idle ∧
                turn.server.crashed = true) ∧
          arrivals.map Arrival.message =
              before.filterMap Incoming.message? ∧
            answers turn = Arrival.taken arrivals ∧
              handled turn = upToExit (Arrival.passed arrivals) := by
  intro start turn
  have hWaiting : turn.server.waiting = none :=
    waiting_run (Turn.sound_create (fun _ => True) engine descriptors)
      (fun _ _ => trivial) files
  rcases takenIn_run engine files descriptors incoming with
    ⟨arrivals,
      ⟨hMessages, hBetween⟩ |
        ⟨before, fault, after, hIncoming, hMessages, hBetween, hIdle,
          hTurn⟩⟩
  · have hOrder := hBetween.inOrder
    refine
      ⟨incoming, [], arrivals, ?_, Or.inl ⟨rfl, hOrder.crashed_eq⟩,
        hMessages, hOrder.answers_eq,
        handled_of_between hBetween hWaiting⟩
    rw [List.append_nil]
  · have hCrash : turn = (start.takeIn files before).crash := hTurn
    have hHandled := handled_of_between hBetween hIdle.1
    refine
      ⟨before, .unreadable fault :: after, arrivals, hIncoming, ?_,
        hMessages, ?_⟩
    · rw [hCrash]
      exact Or.inr ⟨fault, after, rfl, hIdle, rfl⟩
    · rw [hCrash]
      exact ⟨hBetween.inOrder.answers_eq, hHandled⟩

/- What is taken as an answer has no method. -/
theorem method_of_mem_answers
    {engine : BoundedEngine}
    {descriptors : List Descriptor}
    {incoming : List Incoming}
    {message : Json}
    (hTaken :
      message ∈
        answers (run files (Server.create engine descriptors) incoming)) :
    message.get? "method" = none := by
  rcases List.mem_filterMap.mp hTaken with ⟨event, hEvent, hIs⟩
  have hSame : event = .answered message := by
    cases event <;> simp_all [Event.answer?]
  rw [hSame] at hEvent
  rcases List.append_of_mem (List.mem_reverse.mp hEvent) with
    ⟨later, earlier, hEvents⟩
  have hAwaited :=
    answersAwaited_run engine files descriptors incoming message
      earlier ⟨later, hEvents.symm⟩
  exact hAwaited.1

/- If none of some arrivals is an answer, they are all passed on. -/
theorem passed_of_taken_eq_nil
    {arrivals : List Arrival}
    (hTaken : Arrival.taken arrivals = []) :
    Arrival.passed arrivals = arrivals.map Arrival.message := by
  rw [Arrival.taken, List.map_eq_nil_iff, List.filter_eq_nil_iff]
    at hTaken
  rw [Arrival.passed, List.filter_eq_self.mpr]
  intro a hMember
  simpa using hTaken a hMember

/-
  A message with a method is no answer.  So if all have one and
  none is an exit, each one is taken up.
-/
theorem exchanges_run_of_methods
    {messages : List Json}
    (hMethods :
      ∀ message ∈ messages, (message.get? "method").isSome = true)
    (hGoesOn : messages.any Json.isExit = false)
    (engine : BoundedEngine)
    (files : Files)
    (descriptors : List Descriptor) :
    let turn :=
      run files (Server.create engine descriptors)
        (messages.map Incoming.message)
    (exchanges turn.events).map Exchange.message = messages.reverse ∧
      ∀ x ∈ exchanges turn.events, x.answers = [] := by
  intro turn
  rcases
      exists_arrivals_run engine files descriptors
        (messages.map Incoming.message) with
    ⟨before, after, arrivals, hIncoming, hAfter, hMessages, hAnswers,
      hHandled⟩
  have hNil : after = [] := by
    rcases hAfter with ⟨hNil, _⟩ | ⟨fault, rest, hFault, _⟩
    · exact hNil
    · have hMember :
          Incoming.unreadable fault ∈
            messages.map Incoming.message := by
        rw [hIncoming, hFault]
        exact List.mem_append_right before List.mem_cons_self
      rcases List.mem_map.mp hMember with ⟨message, _, hSame⟩
      cases hSame
  have hArrivals : arrivals.map Arrival.message = messages := by
    rw [hNil, List.append_nil] at hIncoming
    rw [hMessages, ← hIncoming, List.filterMap_map]
    exact List.filterMap_some
  have hTaken : Arrival.taken arrivals = [] := by
    rw [List.eq_nil_iff_forall_not_mem]
    intro message hMember
    have hNone : message.get? "method" = none := by
      rw [← hAnswers] at hMember
      exact method_of_mem_answers hMember
    rcases List.mem_map.mp hMember with ⟨a, hFiltered, hSame⟩
    have hSome := hMethods message (by
      rw [← hArrivals, ← hSame]
      exact List.mem_map_of_mem (List.mem_of_mem_filter hFiltered))
    rw [hNone] at hSome
    cases hSome
  rw [passed_of_taken_eq_nil hTaken, hArrivals,
    upToExit_eq_self messages hGoesOn, handled_eq_exchanges]
    at hHandled
  rw [hTaken] at hAnswers
  refine ⟨?_, fun x hMember => answers_eq_nil_of_mem hAnswers hMember⟩
  rw [← hHandled, List.map_reverse, List.reverse_reverse]

/-
  In every session each request with an id is answered by one
  frame with that id, and a message that is none by no frame.
  The answers come in the order in which the messages are taken
  up, which is that of their arrival.  The server goes on to the
  next message after each one, up to an exit, or to something
  that cannot be read and finds the server idle.  Whenever the
  handling of a message fails, its answer is the refusal that
  tells so, and the server goes on.
-/
theorem run_answers
    (engine : BoundedEngine)
    (files : Files)
    (descriptors : List Descriptor)
    (input : Bytes) :
    let incoming := Incoming.ofStream input
    let start : Turn := ⟨Server.create engine descriptors, []⟩
    let turn := run files start.server incoming
    (∀ x ∈ exchanges turn.events,
        x.message.Replied x.replies ∧
          (∀ id,
            x.message.get? "id" = some id →
              x.message.IsRequest →
                ∃ frame,
                  x.replies = [frame] ∧
                    frame.get? "method" = none ∧
                      frame.get? "id" = some id) ∧
            (x.message.IsSilent → x.replies = [])) ∧
      (replies turn =
          (exchanges turn.events).reverse.flatMap Exchange.replies ∧
        handled turn =
          (exchanges turn.events).reverse.map Exchange.message) ∧
        (∃ (before after : List Incoming) (arrivals : List Arrival),
          incoming = before ++ after ∧
            (after = [] ∧ turn.server.crashed = false ∨
              ∃ fault rest,
                after = .unreadable fault :: rest ∧
                  (start.takeIn files before).Idle ∧
                    turn.server.crashed = true) ∧
              arrivals.map Arrival.message =
                  before.filterMap Incoming.message? ∧
                answers turn = Arrival.taken arrivals ∧
                  handled turn =
                    upToExit (Arrival.passed arrivals)) ∧
          AnswersAwaited turn.events ∧
            Reaches engine files descriptors incoming turn ∧
              ∀ (reached next : Turn) (e : HandlerError),
                Reaches engine files descriptors incoming reached →
                  Turn.Fails files (fun item => item ∈ incoming)
                      reached e next →
                    ∃ x earlier,
                      exchanges next.events = x :: earlier ∧
                        x.replies =
                            (Recipient.ofMessage x.message).refusal
                              e ∧
                          next.server.waiting = none ∧
                            next.server.isOver = false := by
  intro incoming start turn
  let arrived : Incoming → Prop := fun item => item ∈ incoming
  have hPrintable :
      ∀ message,
        arrived (.message message) → message.isPrintable = true :=
    fun _ hMessage => Incoming.isPrintable_of_mem_ofStream input hMessage
  have hSound : Turn.Sound arrived start :=
    Turn.sound_create arrived engine descriptors
  have hSteps : Turn.Steps files arrived start turn :=
    steps_run hSound (fun _ hItem => hItem)
  have hSettles : turn.Settles :=
    Turn.settles_of_steps hPrintable
      (Turn.settles_create engine descriptors) hSteps
  have hWaiting : turn.server.waiting = none :=
    waiting_run hSound (fun _ hItem => hItem) files
  refine ⟨?_, ⟨?_, ?_⟩, ?_, ?_, hSteps, ?_⟩
  · intro x hMember
    have hSettled := hSettles.settled hWaiting x hMember
    refine ⟨hSettled, ?_, ?_⟩
    · intro id hId hRequest
      exact Json.exists_frame_of_replied hId hRequest hSettled
    · intro hSilent
      exact Json.eq_nil_of_replied hSilent hSettled
  · exact replies_eq_exchanges hSettles hWaiting
  · exact handled_eq_exchanges turn
  · exact exists_arrivals_run engine files descriptors incoming
  · exact answersAwaited_run engine files descriptors incoming
  · intro reached next e hReached hFails
    exact
      Turn.refused_of_fails hPrintable
        (Turn.sound_of_steps hSound hReached)
        (Turn.settles_of_steps hPrintable
          (Turn.settles_create engine descriptors) hReached)
        hFails

end Session

end Marginalia

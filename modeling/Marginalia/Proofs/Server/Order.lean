import Mathlib.Data.List.Induction
import Marginalia.Proofs.Server.Framing
import Marginalia.Proofs.Server.Steps

/-
  This file proves that messages are taken up in the order in
  which they arrive.

  Some messages are not taken up but taken as answers.  All
  others are taken up, each one once, until an exit is: nothing
  is after it.  While an answer is waited for they are queued,
  so at any time those that were taken up and then those in the
  queue are all that arrived and were not answers.

  Something that cannot be read crashes a server that is idle.
  If an answer is waited for, only the lookup that waits fails.

  Key definitions include:
    * `Session.handled`, `Session.answers`
    * `Session.upToExit`
    * `Arrival`
    * `Session.InOrder`
    * `Turn.Idle`, `Session.TakenIn`
  The main statements are:
    * `Session.between_or_crash_receive`
    * `Session.answersAwaited_of_step`
    * `Session.run_of_idle`
    * `Session.takenIn_run`
-/

namespace Marginalia

namespace Session

------------------------------------------------------------
-- What Was Taken Up
------------------------------------------------------------

/- The messages that were taken up, in order. -/
def handled (turn : Turn) : List Json :=
  turn.events.reverse.filterMap Event.message?

/- The messages that were taken as answers, in order. -/
def answers (turn : Turn) : List Json :=
  turn.events.reverse.filterMap Event.answer?

/- The messages up to the first exit, which is one of them. -/
def upToExit : List Json → List Json
| [] => []
| message :: rest =>
    if message.isExit then [message] else message :: upToExit rest

/- Outputs are no messages that were taken up. -/
theorem handled_of_outputs
    {before after : Turn}
    (hOutputs : Turn.Outputs before after) :
    handled after = handled before := by
  rcases hOutputs with ⟨news, hNews, hOutput⟩
  have hNone : news.reverse.filterMap Event.message? = [] := by
    apply List.filterMap_eq_nil_iff.mpr
    intro event hEvent
    have hIs := hOutput event (List.mem_reverse.mp hEvent)
    cases event <;> simp_all [Event.isOutput, Event.message?]
  simp [handled, hNews, hNone]

/- Outputs are no answers. -/
theorem answers_of_outputs
    {before after : Turn}
    (hOutputs : Turn.Outputs before after) :
    answers after = answers before := by
  rcases hOutputs with ⟨news, hNews, hOutput⟩
  have hNone : news.reverse.filterMap Event.answer? = [] := by
    apply List.filterMap_eq_nil_iff.mpr
    intro event hEvent
    have hIs := hOutput event (List.mem_reverse.mp hEvent)
    cases event <;> simp_all [Event.isOutput, Event.answer?]
  simp [answers, hNews, hNone]

/- A message that is taken up is the last one that was. -/
theorem handled_note_handled
    (turn : Turn)
    (message : Json) :
    handled (turn.note (.handled message)) =
      handled turn ++ [message] := by
  simp [handled, Turn.note, Event.message?]

/- A message that is taken up is no answer. -/
theorem answers_note_handled
    (turn : Turn)
    (message : Json) :
    answers (turn.note (.handled message)) = answers turn := by
  simp [answers, Turn.note, Event.answer?]

/- An answer is not taken up. -/
theorem handled_note_answered
    (turn : Turn)
    (message : Json) :
    handled (turn.note (.answered message)) = handled turn := by
  simp [handled, Turn.note, Event.message?]

/- An answer is the last one that was taken. -/
theorem answers_note_answered
    (turn : Turn)
    (message : Json) :
    answers (turn.note (.answered message)) =
      answers turn ++ [message] := by
  simp [answers, Turn.note, Event.answer?]

------------------------------------------------------------
-- The First Exit
------------------------------------------------------------

/- Without an exit nothing is cut off. -/
theorem upToExit_eq_self
    (messages : List Json)
    (hNone : messages.any Json.isExit = false) :
    upToExit messages = messages := by
  induction messages with
  | nil => rfl
  | cons message rest ih =>
      have hBoth :
          message.isExit = false ∧ rest.any Json.isExit = false := by
        simpa only [List.any_cons, Bool.or_eq_false_iff] using hNone
      rw [upToExit, hBoth.1, ih hBoth.2]
      rfl

/- What comes after the first exit is cut off. -/
theorem upToExit_append_cons
    {message : Json}
    (hExit : message.isExit = true)
    (rest before : List Json)
    (hNone : before.any Json.isExit = false) :
    upToExit (before ++ message :: rest) = before ++ [message] := by
  induction before with
  | nil => simp [upToExit, hExit]
  | cons first before ih =>
      have hBoth :
          first.isExit = false ∧ before.any Json.isExit = false := by
        simpa only [List.any_cons, Bool.or_eq_false_iff] using hNone
      rw [List.cons_append, upToExit, hBoth.1, ih hBoth.2]
      rfl

/- If there is an exit, what comes later changes nothing. -/
theorem upToExit_append_of_any
    (later messages : List Json)
    (hSome : messages.any Json.isExit = true) :
    upToExit (messages ++ later) = upToExit messages := by
  induction messages with
  | nil => cases hSome
  | cons message rest ih =>
      rw [List.cons_append, upToExit, upToExit]
      cases hExit : message.isExit with
      | true => rfl
      | false =>
          have hRest : rest.any Json.isExit = true := by
            simpa only [List.any_cons, hExit, Bool.false_or]
              using hSome
          rw [ih hRest]

/- The first exit is not cut off. -/
theorem any_upToExit
    (messages : List Json) :
    (upToExit messages).any Json.isExit =
      messages.any Json.isExit := by
  induction messages with
  | nil => rfl
  | cons message rest ih =>
      rw [upToExit]
      cases hExit : message.isExit with
      | true => simp [hExit]
      | false => simp [hExit, ih]

end Session

------------------------------------------------------------
-- Arrivals
------------------------------------------------------------

/- A message that arrived, and whether it was taken as an answer. -/
structure Arrival where
  message : Json
  isAnswer : Bool

namespace Arrival

/- Those that were taken as answers. -/
def taken (arrivals : List Arrival) : List Json :=
  (arrivals.filter (fun a => a.isAnswer)).map Arrival.message

/- Those that were not. -/
def passed (arrivals : List Arrival) : List Json :=
  (arrivals.filter (fun a => !a.isAnswer)).map Arrival.message

end Arrival

namespace Session

/-
  The messages were taken up in order: those taken up and those
  in the queue are the arrivals that were not answers, and after
  an exit nothing is taken up.
-/
structure InOrder
    (arrivals : List Arrival)
    (queue : List Json)
    (turn : Turn) : Prop where
  answers_eq : answers turn = Arrival.taken arrivals
  handled_append :
    turn.server.exited = false →
      handled turn ++ queue = Arrival.passed arrivals
  handled_eq :
    turn.server.exited = true →
      handled turn = upToExit (Arrival.passed arrivals)
  exited_eq : turn.server.exited = (handled turn).any Json.isExit
  shutdown_eq :
    turn.server.shutdown = (handled turn).any Json.isShutdown
  crashed_eq : turn.server.crashed = false

variable {files : Files}
variable {arrivals : List Arrival}
variable {queue : List Json}
variable {turn next : Turn}

/- Only what an attempt waits for and its outputs change. -/
theorem inOrder_of_within
    (hOrder : InOrder arrivals queue turn)
    (hWithin : Turn.Within turn next) :
    InOrder arrivals queue next := by
  have hExited : next.server.exited = turn.server.exited :=
    congrArg Course.exited hWithin.rest_eq
  have hShutdown : next.server.shutdown = turn.server.shutdown :=
    congrArg Course.shutdown hWithin.rest_eq
  have hCrashed : next.server.crashed = turn.server.crashed :=
    congrArg Course.crashed hWithin.rest_eq
  have hHandled := handled_of_outputs hWithin.outputs
  have hAnswers := answers_of_outputs hWithin.outputs
  constructor
  · rw [hAnswers]
    exact hOrder.answers_eq
  · rw [hExited, hHandled]
    exact hOrder.handled_append
  · rw [hExited, hHandled]
    exact hOrder.handled_eq
  · rw [hExited, hHandled]
    exact hOrder.exited_eq
  · rw [hShutdown, hHandled]
    exact hOrder.shutdown_eq
  · rw [hCrashed]
    exact hOrder.crashed_eq

/- The first message of the queue is taken up. -/
theorem inOrder_of_tookUp
    {message : Json}
    {rest : List Json}
    (hOrder : InOrder arrivals (message :: rest) turn)
    (hGoesOn : turn.server.exited = false)
    (hTookUp : Turn.TookUp message turn next) :
    InOrder arrivals rest next := by
  have hExited : next.server.exited = message.isExit := by
    have hSame :
        next.server.exited =
          (turn.server.exited || message.isExit) :=
      congrArg Course.exited hTookUp.rest_eq
    rw [hSame, hGoesOn, Bool.false_or]
  have hShutdown :
      next.server.shutdown =
        (turn.server.shutdown || message.isShutdown) :=
    congrArg Course.shutdown hTookUp.rest_eq
  have hCrashed : next.server.crashed = turn.server.crashed :=
    congrArg Course.crashed hTookUp.rest_eq
  have hHandled : handled next = handled turn ++ [message] := by
    rw [handled_of_outputs hTookUp.outputs, handled_note_handled]
  have hAnswers : answers next = answers turn := by
    rw [answers_of_outputs hTookUp.outputs, answers_note_handled]
  have hNone : (handled turn).any Json.isExit = false := by
    rw [← hOrder.exited_eq]
    exact hGoesOn
  have hAppend := hOrder.handled_append hGoesOn
  constructor
  · rw [hAnswers]
    exact hOrder.answers_eq
  · intro _
    rw [hHandled, List.append_assoc]
    exact hAppend
  · intro hExit
    rw [hExited] at hExit
    rw [hHandled, ← hAppend, upToExit_append_cons hExit _ _ hNone]
  · rw [hExited, hHandled, List.any_append, hNone]
    simp
  · rw [hShutdown, hHandled, List.any_append, hOrder.shutdown_eq]
    simp
  · rw [hCrashed]
    exact hOrder.crashed_eq

/- A message that arrives is the last one of the queue. -/
theorem inOrder_of_arrived
    (hOrder : InOrder arrivals queue turn)
    (message : Json) :
    InOrder (arrivals ++ [⟨message, false⟩]) (queue ++ [message])
      turn := by
  have hTaken :
      Arrival.taken (arrivals ++ [⟨message, false⟩]) =
        Arrival.taken arrivals := by
    simp [Arrival.taken]
  have hPassed :
      Arrival.passed (arrivals ++ [⟨message, false⟩]) =
        Arrival.passed arrivals ++ [message] := by
    simp [Arrival.passed]
  refine
    ⟨?_, ?_, ?_, hOrder.exited_eq, hOrder.shutdown_eq,
      hOrder.crashed_eq⟩
  · rw [hTaken]
    exact hOrder.answers_eq
  · intro hGoesOn
    rw [hPassed, ← List.append_assoc, hOrder.handled_append hGoesOn]
  · intro hExited
    have hEq := hOrder.handled_eq hExited
    have hSome : (Arrival.passed arrivals).any Json.isExit = true := by
      rw [← any_upToExit, ← hEq, ← hOrder.exited_eq]
      exact hExited
    rw [hPassed, upToExit_append_of_any _ _ hSome]
    exact hEq

/- A message that is taken as an answer. -/
theorem inOrder_of_answered
    (hOrder : InOrder arrivals queue turn)
    (message : Json) :
    InOrder (arrivals ++ [⟨message, true⟩]) queue
      (turn.note (.answered message)) := by
  have hTaken :
      Arrival.taken (arrivals ++ [⟨message, true⟩]) =
        Arrival.taken arrivals ++ [message] := by
    simp [Arrival.taken]
  have hPassed :
      Arrival.passed (arrivals ++ [⟨message, true⟩]) =
        Arrival.passed arrivals := by
    simp [Arrival.passed]
  constructor
  · rw [answers_note_answered, hTaken, hOrder.answers_eq]
  · rw [handled_note_answered, hPassed]
    exact hOrder.handled_append
  · rw [handled_note_answered, hPassed]
    exact hOrder.handled_eq
  · rw [handled_note_answered]
    exact hOrder.exited_eq
  · rw [handled_note_answered]
    exact hOrder.shutdown_eq
  · exact hOrder.crashed_eq

/- After an exit the queue does not matter. -/
theorem inOrder_of_exited
    (hOrder : InOrder arrivals queue turn)
    (hExited : turn.server.exited = true)
    (other : List Json) :
    InOrder arrivals other turn := by
  refine
    ⟨hOrder.answers_eq, ?_, hOrder.handled_eq, hOrder.exited_eq,
      hOrder.shutdown_eq, hOrder.crashed_eq⟩
  intro hGoesOn
  rw [hExited] at hGoesOn
  cases hGoesOn

------------------------------------------------------------
-- Between Arrivals
------------------------------------------------------------

/-
  Between two arrivals the messages were taken up in order, and
  a server that could take up a message has none in its queue.
-/
structure Between (arrivals : List Arrival) (turn : Turn) : Prop where
  inOrder : InOrder arrivals turn.server.queue turn
  queue_eq_nil :
    turn.server.waiting = none →
      turn.server.exited = false → turn.server.queue = []

/- A server that did not crash goes on until an exit. -/
theorem isOver_eq_exited
    (hOrder : InOrder arrivals queue turn) :
    turn.server.isOver = turn.server.exited := by
  rw [Server.isOver, hOrder.crashed_eq, Bool.or_false]

/-
  Messages are taken up from the queue in order.  The induction
  is on the queue.
-/
theorem between_drain
    (files : Files)
    (queue : List Json) :
    ∀ turn : Turn,
      InOrder arrivals queue turn →
        Between arrivals (Turn.drain files queue turn) := by
  induction queue with
  | nil =>
      intro turn hOrder
      refine ⟨?_, fun _ _ => rfl⟩
      exact
        ⟨hOrder.answers_eq, hOrder.handled_append,
          hOrder.handled_eq, hOrder.exited_eq, hOrder.shutdown_eq,
          hOrder.crashed_eq⟩
  | cons message rest ih =>
      intro turn hOrder
      unfold Turn.drain
      split
      · next hStops =>
          constructor
          · exact
              ⟨hOrder.answers_eq, hOrder.handled_append,
                hOrder.handled_eq, hOrder.exited_eq,
                hOrder.shutdown_eq, hOrder.crashed_eq⟩
          · intro hWaiting hGoesOn
            have hNone : turn.server.waiting = none := hWaiting
            have hNot : turn.server.exited = false := hGoesOn
            rw [isOver_eq_exited hOrder, hNone, hNot] at hStops
            cases hStops
      · next hGoesOn =>
          have hFree :
              turn.server.waiting = none ∧
                turn.server.exited = false := by
            simpa [isOver_eq_exited hOrder] using hGoesOn
          have hTookUp := Turn.tookUp_handle hFree.1 files message
          exact ih _ (inOrder_of_tookUp hOrder hFree.2 hTookUp.1)

/- Going on after a wait, and then with the queue. -/
theorem between_goOn
    {rounds : Nat}
    {start : Turn}
    {waiting : Waiting}
    {h : Handler Unit}
    (hOrder : InOrder arrivals start.server.queue start)
    (hTried :
      Turn.Tried rounds start (turn.attempt waiting.recipient h)) :
    Between arrivals (turn.goOn files waiting h) := by
  have hGivenUp := (Turn.tried_giveUp_giveUp hTried.attends).1
  have hWithin := Turn.within_trans hTried.within hGivenUp.within
  apply between_drain
  rw [Turn.queue_of_within hWithin]
  exact inOrder_of_within hOrder hWithin

end Session

/- The message that arrives, if it is one. -/
def Incoming.message? : Incoming → Option Json
| .message value => some value
| .garbled => none
| .faultyLength => none
| .unreadable _ => none

namespace Session

variable {files : Files}
variable {arrivals : List Arrival}
variable {turn : Turn}

/- A message arrives. -/
theorem between_receive_message
    (hBetween : Between arrivals turn)
    (files : Files)
    (message : Json) :
    ∃ isAnswer,
      Between (arrivals ++ [⟨message, isAnswer⟩])
        (turn.receive files (.message message)) := by
  have hOrder := hBetween.inOrder
  have hArrived := inOrder_of_arrived hOrder message
  unfold Turn.receive
  split
  · next hOver =>
      rw [isOver_eq_exited hOrder] at hOver
      refine ⟨false, inOrder_of_exited hArrived hOver _, ?_⟩
      intro _ hGoesOn
      rw [hOver] at hGoesOn
      cases hGoesOn
  · next hGoesOn =>
      have hNot : turn.server.exited = false := by
        simpa [isOver_eq_exited hOrder] using hGoesOn
      cases hWaiting : turn.server.waiting with
      | none =>
          have hQueue := hBetween.queue_eq_nil hWaiting hNot
          have hTookUp := Turn.tookUp_handle hWaiting files message
          have hSame :
              (turn.handle files message).server.queue =
                turn.server.queue :=
            congrArg Course.queue hTookUp.1.rest_eq
          rw [hQueue] at hArrived hSame
          have hNext := inOrder_of_tookUp hArrived hNot hTookUp.1
          refine ⟨false, ?_, fun _ _ => hSame⟩
          rw [hSame]
          exact hNext
      | some waiting =>
          dsimp only
          split
          · exact
              ⟨true,
                between_goOn (inOrder_of_answered hOrder message)
                  (Turn.tried_answer turn waiting message)⟩
          · refine ⟨false, ?_, ?_⟩
            · exact
                ⟨hArrived.answers_eq, hArrived.handled_append,
                  hArrived.handled_eq, hArrived.exited_eq,
                  hArrived.shutdown_eq, hArrived.crashed_eq⟩
            · intro hNone
              have hSame : turn.server.waiting = none := hNone
              rw [hWaiting] at hSame
              cases hSame

/- A remark keeps what holds between arrivals. -/
theorem between_remark
    (hBetween : Between arrivals turn)
    (r : Diagnostic) :
    Between arrivals (turn.note (.remarked r)) := by
  have hCalm : Turn.Calm turn (turn.note (.remarked r)) :=
    Turn.calm_note turn rfl
  exact
    ⟨inOrder_of_within hBetween.inOrder
        (Turn.within_of_calm hCalm),
      hBetween.queue_eq_nil⟩

end Session

/-
  The server crashes: something cannot be read, and nothing is
  waited for that could fail instead.
-/
def Turn.crash (turn : Turn) : Turn :=
  turn.update (fun s => { s with crashed := true })

/-
  The server goes on and waits for nothing, so nobody is
  prepared for something that cannot be read.
-/
def Turn.Idle (turn : Turn) : Prop :=
  turn.server.waiting = none ∧ turn.server.isOver = false

/- Take in what arrives, in order. -/
def Turn.takeIn
    (files : Files)
    (turn : Turn)
    (incoming : List Incoming) : Turn :=
  incoming.foldl (Turn.receive files) turn

namespace Session

variable {files : Files}
variable {arrivals : List Arrival}
variable {start turn : Turn}

/- A server that does not go on takes nothing in. -/
theorem receive_of_isOver
    (hOver : turn.server.isOver = true)
    (files : Files)
    (item : Incoming) :
    turn.receive files item = turn := by
  unfold Turn.receive
  rw [hOver]
  rfl

/- Nor does it take in more than one thing. -/
theorem takeIn_of_isOver
    (hOver : turn.server.isOver = true)
    (files : Files)
    (incoming : List Incoming) :
    turn.takeIn files incoming = turn := by
  induction incoming with
  | nil => rfl
  | cons item incoming ih =>
      rw [Turn.takeIn, List.foldl_cons, receive_of_isOver hOver]
      exact ih

/- One part after the other is taken in. -/
theorem takeIn_append
    (files : Files)
    (turn : Turn)
    (before after : List Incoming) :
    turn.takeIn files (before ++ after) =
      (turn.takeIn files before).takeIn files after :=
  List.foldl_append

/- After a crash the server does not go on. -/
theorem isOver_crash
    (turn : Turn) :
    turn.crash.server.isOver = true :=
  Bool.or_true _

/- What cannot be read crashes an idle server. -/
theorem receive_of_idle
    (hIdle : turn.Idle)
    (files : Files)
    (fault : ReadFault) :
    turn.receive files (.unreadable fault) = turn.crash := by
  unfold Turn.receive
  rw [hIdle.2, hIdle.1]
  rfl

/- Whatever comes after it, nothing else is taken in. -/
theorem takeIn_of_idle
    {before : List Incoming}
    (hIdle : (start.takeIn files before).Idle)
    (fault : ReadFault)
    (after : List Incoming) :
    start.takeIn files (before ++ .unreadable fault :: after) =
      (start.takeIn files before).crash := by
  have hOver := isOver_crash (start.takeIn files before)
  rw [takeIn_append, Turn.takeIn, List.foldl_cons,
    receive_of_idle hIdle]
  exact takeIn_of_isOver hOver files after

/- So the session ends there. -/
theorem run_of_idle
    {server : Server}
    {before : List Incoming}
    (hIdle : (Turn.takeIn files ⟨server, []⟩ before).Idle)
    (fault : ReadFault)
    (after : List Incoming) :
    run files server (before ++ .unreadable fault :: after) =
      (Turn.takeIn files ⟨server, []⟩ before).crash := by
  have hTaken :
      run files server (before ++ .unreadable fault :: after) =
        (Turn.takeIn files ⟨server, []⟩
          (before ++ .unreadable fault :: after)).finish files :=
    rfl
  rw [hTaken, takeIn_of_idle hIdle, Turn.finish,
    if_pos (isOver_crash _)]

/-
  What cannot be read crashes a server that waits for nothing.
  If an answer is waited for, the lookup that waits fails, and
  the server goes on.
-/
theorem between_or_crash_of_unreadable
    (hBetween : Between arrivals turn)
    (files : Files)
    (fault : ReadFault) :
    Between arrivals (turn.receive files (.unreadable fault)) ∨
      turn.Idle ∧
        turn.receive files (.unreadable fault) = turn.crash := by
  cases hOver : turn.server.isOver with
  | true =>
      rw [receive_of_isOver hOver]
      exact Or.inl hBetween
  | false =>
      cases hWaiting : turn.server.waiting with
      | none =>
          have hIdle : turn.Idle := ⟨hWaiting, hOver⟩
          exact Or.inr ⟨hIdle, receive_of_idle hIdle files fault⟩
      | some waiting =>
          left
          unfold Turn.receive
          rw [hOver, hWaiting]
          exact
            between_goOn hBetween.inOrder
              (Turn.tried_interrupt turn waiting (.unreadable fault))

/- Something arrives. -/
theorem between_or_crash_receive
    (hBetween : Between arrivals turn)
    (files : Files)
    (item : Incoming) :
    (∃ more : List Arrival,
        more.map Arrival.message = item.message?.toList ∧
          Between (arrivals ++ more) (turn.receive files item)) ∨
      ∃ fault,
        item = .unreadable fault ∧
          turn.Idle ∧ turn.receive files item = turn.crash := by
  cases item with
  | message message =>
      rcases between_receive_message hBetween files message with
        ⟨isAnswer, hNext⟩
      exact Or.inl ⟨[⟨message, isAnswer⟩], rfl, hNext⟩
  | garbled =>
      refine Or.inl ⟨[], rfl, ?_⟩
      rw [List.append_nil]
      unfold Turn.receive
      split
      · exact hBetween
      · exact between_remark hBetween _
  | faultyLength =>
      refine Or.inl ⟨[], rfl, ?_⟩
      rw [List.append_nil]
      unfold Turn.receive
      split
      · exact hBetween
      · exact between_remark hBetween _
  | unreadable fault =>
      rcases between_or_crash_of_unreadable hBetween files fault with
        hNext | hCrash
      · refine Or.inl ⟨[], rfl, ?_⟩
        rw [List.append_nil]
        exact hNext
      · exact Or.inr ⟨fault, rfl, hCrash⟩

/-
  From a start the messages of the items were taken in in order,
  up to the end of the items, or to the one that crashed the
  server.
-/
def TakenIn
    (files : Files)
    (start : Turn)
    (arrivals : List Arrival)
    (incoming : List Incoming)
    (turn : Turn) : Prop :=
  (arrivals.map Arrival.message =
        incoming.filterMap Incoming.message? ∧
      Between arrivals turn) ∨
    ∃ before fault after,
      incoming = before ++ .unreadable fault :: after ∧
        arrivals.map Arrival.message =
            before.filterMap Incoming.message? ∧
          Between arrivals (start.takeIn files before) ∧
            (start.takeIn files before).Idle ∧
              turn = (start.takeIn files before).crash

/-
  One more item is taken in.  After a crash nothing changes any
  more.
-/
theorem takenIn_concat
    {incoming : List Incoming}
    (hTakenIn :
      TakenIn files start arrivals incoming
        (start.takeIn files incoming))
    (item : Incoming) :
    ∃ more : List Arrival,
      TakenIn files start (arrivals ++ more) (incoming ++ [item])
        (start.takeIn files (incoming ++ [item])) := by
  have hNext :
      start.takeIn files (incoming ++ [item]) =
        (start.takeIn files incoming).receive files item :=
    takeIn_append files start incoming [item]
  rw [hNext]
  rcases hTakenIn with
    ⟨hMessages, hBetween⟩ |
      ⟨before, fault, after, hIncoming, hMessages, hBetween, hIdle,
        hTurn⟩
  · rcases between_or_crash_receive hBetween files item with
      ⟨more, hMore, hAfter⟩ | ⟨fault, hItem, hIdle, hCrash⟩
    · refine ⟨more, Or.inl ⟨?_, hAfter⟩⟩
      rw [List.map_append, List.filterMap_append, hMessages, hMore]
      cases item <;> rfl
    · refine ⟨[], Or.inr ⟨incoming, fault, [], ?_, ?_, ?_⟩⟩
      · rw [hItem]
      · rw [List.append_nil]
        exact hMessages
      · rw [List.append_nil]
        exact ⟨hBetween, hIdle, hCrash⟩
  · have hOver : (start.takeIn files incoming).server.isOver = true := by
      rw [hTurn]
      exact isOver_crash _
    refine
      ⟨[], Or.inr ⟨before, fault, after ++ [item], ?_, ?_, ?_⟩⟩
    · rw [hIncoming, List.append_assoc, List.cons_append]
    · rw [List.append_nil]
      exact hMessages
    · rw [List.append_nil, receive_of_isOver hOver]
      exact ⟨hBetween, hIdle, hTurn⟩

/-
  All that arrives is taken in in order.  The induction is on
  what arrives, from its end.
-/
theorem takenIn_takeIn
    (hStart : Between [] start)
    (files : Files)
    (incoming : List Incoming) :
    ∃ arrivals : List Arrival,
      TakenIn files start arrivals incoming
        (start.takeIn files incoming) := by
  induction incoming using List.reverseRecOn with
  | nil => exact ⟨[], Or.inl ⟨rfl, hStart⟩⟩
  | append_singleton incoming item ih =>
      rcases ih with ⟨arrivals, hTakenIn⟩
      rcases takenIn_concat hTakenIn item with ⟨more, hNext⟩
      exact ⟨arrivals ++ more, hNext⟩

/- At the end of the input the queue is taken up in order. -/
theorem between_finish
    {arrived : Incoming → Prop}
    (hSound : Turn.Sound arrived turn)
    (hBetween : Between arrivals turn) :
    Between arrivals (turn.finish files) := by
  unfold Turn.finish
  split
  · exact hBetween
  · have hOrder := hBetween.inOrder
    have hClosed :
        InOrder arrivals turn.server.queue
          (turn.update (fun s => { s with inputClosed := true })) :=
      ⟨hOrder.answers_eq, hOrder.handled_append, hOrder.handled_eq,
        hOrder.exited_eq, hOrder.shutdown_eq, hOrder.crashed_eq⟩
    have hAttends :
        (turn.update (fun s =>
          { s with inputClosed := true })).Attends :=
      hSound.attends
    have hGivenUp := (Turn.tried_giveUp_giveUp hAttends).1
    apply between_drain
    rw [Turn.queue_of_within hGivenUp.within]
    exact inOrder_of_within hClosed hGivenUp.within

/- So it is after a crash, when nothing changes any more. -/
theorem takenIn_finish
    {arrived : Incoming → Prop}
    {incoming : List Incoming}
    (hSound : Turn.Sound arrived turn)
    (hTakenIn : TakenIn files start arrivals incoming turn) :
    TakenIn files start arrivals incoming (turn.finish files) := by
  rcases hTakenIn with
    ⟨hMessages, hBetween⟩ |
      ⟨before, fault, after, hIncoming, hMessages, hBetween, hIdle,
        hTurn⟩
  · exact Or.inl ⟨hMessages, between_finish hSound hBetween⟩
  · have hOver : turn.server.isOver = true := by
      rw [hTurn]
      exact isOver_crash _
    have hSame : turn.finish files = turn := by
      rw [Turn.finish, if_pos hOver]
    rw [hSame]
    exact
      Or.inr
        ⟨before, fault, after, hIncoming, hMessages, hBetween,
          hIdle, hTurn⟩

/-
  When nothing is waited for, all messages that were taken in
  and were no answers were taken up, to the first exit.
-/
theorem handled_of_between
    (hBetween : Between arrivals turn)
    (hWaiting : turn.server.waiting = none) :
    handled turn = upToExit (Arrival.passed arrivals) := by
  have hOrder := hBetween.inOrder
  cases hExited : turn.server.exited with
  | true => exact hOrder.handled_eq hExited
  | false =>
      have hAll := hOrder.handled_append hExited
      rw [hBetween.queue_eq_nil hWaiting hExited, List.append_nil]
        at hAll
      rw [← hAll]
      apply Eq.symm
      apply upToExit_eq_self
      rw [← hOrder.exited_eq]
      exact hExited

------------------------------------------------------------
-- Answers
------------------------------------------------------------

/-
  Every message that was taken as an answer has no method, and
  its `id` is the one that was waited for when it was taken.
-/
def AnswersAwaited (events : List Event) : Prop :=
  ∀ (message : Json) (before : List Event),
    Event.answered message :: before <:+ events →
      message.get? "method" = none ∧
        ∃ id, message.text? "id" = some id ∧ awaited? before = some id

/- Any event but an answer may come next. -/
theorem answersAwaited_cons
    {event : Event}
    {events : List Event}
    (hEvents : AnswersAwaited events)
    (hEvent : event.answer? = none) :
    AnswersAwaited (event :: events) := by
  intro message before hSuffix
  rcases List.suffix_cons_iff.mp hSuffix with hSame | hOlder
  · have hFirst : Event.answered message = event :=
      (List.cons.inj hSame).1
    rw [← hFirst] at hEvent
    cases hEvent
  · exact hEvents message before hOlder

/- Outputs may come next. -/
theorem answersAwaited_of_outputs
    {before after : Turn}
    (hEvents : AnswersAwaited before.events)
    (hOutputs : Turn.Outputs before after) :
    AnswersAwaited after.events := by
  rcases hOutputs with ⟨news, hNews, hOutput⟩
  rw [hNews]
  clear hNews
  induction news with
  | nil => exact hEvents
  | cons event news ih =>
      have hIs := hOutput event List.mem_cons_self
      apply answersAwaited_cons
      · apply ih
        intro other hOther
        exact hOutput other (List.mem_cons_of_mem event hOther)
      · cases event <;> simp_all [Event.isOutput, Event.answer?]

/- The answer that is waited for may come next. -/
theorem answersAwaited_answered
    {waiting : Waiting}
    {message : Json}
    (hEvents : AnswersAwaited turn.events)
    (hAttends : turn.Attends)
    (hWaiting : turn.server.waiting = some waiting)
    (hAnswered : waiting.isAnsweredBy message = true) :
    AnswersAwaited (turn.note (.answered message)).events := by
  intro other before hSuffix
  rcases List.suffix_cons_iff.mp hSuffix with hSame | hOlder
  · have hBoth := List.cons.inj hSame
    have hMessage : other = message := Event.answered.inj hBoth.1
    have hIs :
        message.get? "method" = none ∧
          message.text? "id" = some waiting.request := by
      simpa [Waiting.isAnsweredBy] using hAnswered
    rw [hMessage, hBoth.2]
    exact ⟨hIs.1, waiting.request, hIs.2, hAttends waiting hWaiting⟩
  · exact hEvents other before hOlder

/- Every step keeps this. -/
theorem answersAwaited_of_step
    {arrived : Incoming → Prop}
    {next : Turn}
    (hEvents : AnswersAwaited turn.events)
    (hSound : Turn.Sound arrived turn)
    (hStep : Turn.Step files arrived turn next) :
    AnswersAwaited next.events := by
  cases hStep with
  | takeUp hArrived hWaiting hGoesOn =>
      apply answersAwaited_of_outputs _
        (Turn.tookUp_attempt hWaiting files _).outputs
      exact answersAwaited_cons hEvents rfl
  | answer hArrived hWaiting hAnswered =>
      apply answersAwaited_of_outputs _
        (Turn.tried_answer turn _ _).within.outputs
      exact
        answersAwaited_answered hEvents hSound.attends hWaiting
          hAnswered
  | giveUp hWaiting hClosed =>
      exact
        answersAwaited_of_outputs hEvents
          (Turn.tried_resume_none turn _).within.outputs
  | interrupt _ hWaiting =>
      exact
        answersAwaited_of_outputs hEvents
          (Turn.tried_interrupt turn _ _).within.outputs
  | enqueue hArrived => exact hEvents
  | close => exact hEvents
  | crash _ _ => exact hEvents
  | remark r => exact answersAwaited_cons hEvents rfl

/- So do all steps. -/
theorem answersAwaited_of_steps
    {arrived : Incoming → Prop}
    {start next : Turn}
    (hEvents : AnswersAwaited start.events)
    (hSound : Turn.Sound arrived start)
    (hSteps : Turn.Steps files arrived start next) :
    AnswersAwaited next.events := by
  induction hSteps with
  | refl => exact hEvents
  | tail hBefore hStep ih =>
      exact
        answersAwaited_of_step ih
          (Turn.sound_of_steps hSound hBefore) hStep

------------------------------------------------------------
-- Sessions
------------------------------------------------------------

/- At the start nothing arrived and nothing was taken up. -/
theorem between_create
    (engine : BoundedEngine)
    (descriptors : List Descriptor) :
    Between [] ⟨Server.create engine descriptors, []⟩ := by
  constructor
  · constructor
    · rfl
    · intro _
      rfl
    · intro hExited
      cases hExited
    · rfl
    · rfl
    · rfl
  · intro _ _
    rfl

/- Remarks on lengths are no messages. -/
theorem messages_faultyLength
    (n : Nat) :
    (List.replicate n Incoming.faultyLength).filterMap
        Incoming.message? =
      [] := by
  simp [Incoming.message?]

/- The message of a body is its value, if it can be read. -/
theorem message?_ofBody
    (body : Bytes) :
    (Incoming.ofBody body).message? = Json.parse? body := by
  rw [Incoming.ofBody, Json.parse?]
  cases Json.parse body with
  | ok value => rfl
  | error fault => cases fault <;> rfl

/- In a whole session all that arrives is taken in in order. -/
theorem takenIn_run
    (engine : BoundedEngine)
    (files : Files)
    (descriptors : List Descriptor)
    (incoming : List Incoming) :
    ∃ arrivals : List Arrival,
      TakenIn files ⟨Server.create engine descriptors, []⟩ arrivals
        incoming
        (run files (Server.create engine descriptors) incoming) := by
  let start : Turn := ⟨Server.create engine descriptors, []⟩
  have hSound : Turn.Sound (fun _ => True) start :=
    Turn.sound_create (fun _ => True) engine descriptors
  have hSteps :
      Turn.Steps files (fun _ => True) start
        (start.takeIn files incoming) :=
    steps_foldl_receive incoming start hSound (fun _ _ => trivial)
  rcases
      takenIn_takeIn (between_create engine descriptors) files
        incoming with
    ⟨arrivals, hTakenIn⟩
  exact
    ⟨arrivals,
      takenIn_finish (Turn.sound_of_steps hSound hSteps) hTakenIn⟩

/- In a whole session only answers that are awaited are taken. -/
theorem answersAwaited_run
    (engine : BoundedEngine)
    (files : Files)
    (descriptors : List Descriptor)
    (incoming : List Incoming) :
    AnswersAwaited
      (run files (Server.create engine descriptors)
        incoming).events := by
  have hSound :
      Turn.Sound (fun _ => True)
        ⟨Server.create engine descriptors, []⟩ :=
    Turn.sound_create (fun _ => True) engine descriptors
  apply answersAwaited_of_steps _ hSound
    (steps_run hSound (fun _ _ => trivial))
  intro message before hSuffix
  cases List.suffix_nil.mp hSuffix

end Session

end Marginalia

import Mathlib.Logic.Relation
import Marginalia.Proofs.Server.Calm

/-
  This file takes a session apart into steps.  A message is
  taken up, an answer is taken, or the server gives up waiting;
  in between it only changes its queue, notices that the input
  has ended, or makes remarks.

  What holds at the start of a session and is kept by every step
  holds at its end.

  Key definitions include:
    * `Json.isExit`, `Json.isShutdown`
    * `Turn.Tried`, `Turn.TookUp`
    * `Turn.Step`, `Turn.Steps`
  The main statements are:
    * `Turn.tookUp_handle`
    * `Session.steps_run`
    * `Session.waiting_run`
-/

namespace Marginalia

------------------------------------------------------------
-- Attempts
------------------------------------------------------------

namespace Turn

/-
  The second turn comes from the first by an attempt: what is
  waited for then is what the events say, for at most so many
  rounds.
-/
structure Tried (rounds : Nat) (before after : Turn) : Prop where
  within : Within before after
  attends : after.Attends
  rounds_le : after.server.rounds ≤ rounds

/- A refusal is an output at most. -/
theorem calm_refuse
    (turn : Turn)
    (recipient : Recipient)
    (e : HandlerError) :
    Calm turn (turn.refuse recipient e) := by
  unfold refuse
  split
  · exact calm_refl turn
  · exact calm_note turn rfl

/- A change of the server may be made before the attempt. -/
theorem attempt_update_bind
    (turn : Turn)
    (recipient : Recipient)
    (f : Server → Server)
    (k : Unit → Handler Unit) :
    turn.attempt recipient (Handler.update f >>= k) =
      (turn.update f).attempt recipient (k ()) := by
  unfold attempt
  rw [Handler.runFrom_update_bind]

/- An attempt of a handler that may wait. -/
theorem tried_attempt
    {rounds : Nat}
    {h : Handler Unit}
    {turn : Turn}
    (hAsks : Handler.AsksAt rounds h turn)
    (recipient : Recipient) :
    Tried rounds turn (turn.attempt recipient h) := by
  rcases hAsks with ⟨hWithin, hAttends, hRounds, hError⟩
  unfold attempt
  cases hRun : h.runFrom turn with
  | mk result next =>
      rw [hRun] at hWithin hAttends hRounds hError
      cases result with
      | ok value => exact ⟨hWithin, hAttends, hRounds⟩
      | error e =>
          have hCalm := calm_refuse next recipient e
          have hWaiting :
              (next.refuse recipient e).server.waiting = none := by
            rw [waiting_of_calm hCalm]
            exact hError rfl
          refine ⟨?_, attends_of_waiting_eq_none hWaiting, ?_⟩
          · exact within_trans hWithin (within_of_calm hCalm)
          · rw [Server.rounds_eq_zero_iff.mpr hWaiting]
            exact Nat.zero_le rounds

------------------------------------------------------------
-- Giving Up
------------------------------------------------------------

/- Giving up leaves one round fewer to go once the input has ended. -/
theorem tried_giveUp
    {turn : Turn}
    (hAttends : turn.Attends) :
    Tried
      (if turn.server.inputClosed then turn.server.rounds - 1
        else turn.server.rounds)
      turn turn.giveUp := by
  unfold giveUp
  cases hClosed : turn.server.inputClosed with
  | false => exact ⟨within_refl turn, hAttends, Nat.le_refl _⟩
  | true =>
      cases hWaiting : turn.server.waiting with
      | none =>
          have hRounds : turn.server.rounds = 0 :=
            Server.rounds_eq_zero_iff.mpr hWaiting
          refine ⟨within_refl turn, hAttends, ?_⟩
          simp [hRounds]
      | some waiting =>
          have hTried :=
            tried_attempt (Handler.asksAt_resume waiting none turn)
              waiting.recipient
          rw [← Server.rounds_of_waiting hWaiting] at hTried
          exact hTried

/- There is nothing to give up if nothing is waited for. -/
theorem giveUp_of_waiting_eq_none
    {turn : Turn}
    (hWaiting : turn.server.waiting = none) :
    turn.giveUp = turn := by
  unfold giveUp
  rw [hWaiting]
  cases turn.server.inputClosed <;> rfl

/- The flag for the end of the input stays as it is. -/
theorem inputClosed_of_within
    {before after : Turn}
    (hWithin : Within before after) :
    after.server.inputClosed = before.server.inputClosed :=
  congrArg Course.inputClosed hWithin.rest_eq

/-
  After giving up twice nothing is waited for once the input has
  ended.
-/
theorem tried_giveUp_giveUp
    {turn : Turn}
    (hAttends : turn.Attends) :
    Tried 2 turn turn.giveUp.giveUp ∧
      (turn.server.inputClosed = true →
        turn.giveUp.giveUp.server.waiting = none) := by
  have hFirst := tried_giveUp hAttends
  have hSecond := tried_giveUp hFirst.attends
  constructor
  · exact
      ⟨within_trans hFirst.within hSecond.within, hSecond.attends,
        Server.rounds_le_two _⟩
  · intro hClosed
    have hFirstLe := hFirst.rounds_le
    have hSecondLe := hSecond.rounds_le
    have hAtMost := turn.server.rounds_le_two
    rw [inputClosed_of_within hFirst.within] at hSecondLe
    simp only [hClosed, if_true] at hFirstLe hSecondLe
    apply Server.rounds_eq_zero_iff.mp
    omega

end Turn

------------------------------------------------------------
-- Taking Up a Message
------------------------------------------------------------

/- The message asks the server to stop at once. -/
def Json.isExit (message : Json) : Bool :=
  message.text? "method" == some (utf8 "exit")

/- The message announces the end of the session. -/
def Json.isShutdown (message : Json) : Bool :=
  message.text? "method" == some (utf8 "shutdown")

/- A member with a text is a member. -/
theorem Json.get?_of_text?
    {value : Json}
    {key : String}
    {text : Bytes}
    (hText : value.text? key = some text) :
    value.get? key = some (.text text) := by
  rcases Option.bind_eq_some_iff.mp hText with ⟨member, hMember, hAs⟩
  rw [hMember]
  cases member with
  | text s =>
      cases hAs
      rfl
  | _ => cases hAs

namespace Handler

/- The handling of a message with a method. -/
theorem handle_of_method
    {message : Json}
    {method : Bytes}
    (hMethod : message.text? "method" = some method)
    (files : Files) :
    handle files message =
      dispatch files (Recipient.ofMessage message) method
        message.params := by
  unfold handle
  rw [Json.get?_of_text? hMethod]
  rfl

/- Without a method there is a remark or a failure. -/
theorem handle_of_text?_eq_none
    {message : Json}
    (hMethod : message.text? "method" = none)
    (files : Files) :
    (∃ r, handle files message = remark r) ∨
      ∃ e, handle files message = throw e := by
  unfold handle
  cases hValue : message.get? "method" with
  | none => exact Or.inl ⟨_, rfl⟩
  | some value =>
      right
      cases value with
      | text s => simp [Json.text?, hValue, Json.asText?] at hMethod
      | _ => exact ⟨_, rfl⟩

/- An exit is noted. -/
theorem handle_of_isExit
    {message : Json}
    (hExit : message.isExit = true)
    (files : Files) :
    handle files message =
      update (fun s => { s with exited := true }) := by
  rw [handle_of_method (by simpa [Json.isExit] using hExit)]
  rfl

/- A shutdown is noted and answered. -/
theorem handle_of_isShutdown
    {message : Json}
    (hShutdown : message.isShutdown = true)
    (files : Files) :
    handle files message =
      (update (fun s => { s with shutdown := true }) >>= fun _ =>
        answer (Recipient.ofMessage message) .null) := by
  rw [handle_of_method (by simpa [Json.isShutdown] using hShutdown)]
  rfl

/- Handling any other method waits for two rounds at most. -/
theorem asks_dispatch
    {method : Bytes}
    (hExit : method ≠ utf8 "exit")
    (hShutdown : method ≠ utf8 "shutdown")
    (files : Files)
    (recipient : Recipient)
    (params : Json) :
    Asks 2 (dispatch files recipient method params) := by
  unfold dispatch
  rw [if_neg hShutdown, if_neg hExit]
  repeat' split
  · exact asks_of_calm (calm_setUp _ _) 2
  · exact asks_of_quiet (quiet_pure ()) 2
  · exact asks_of_quiet (quiet_opened _) 2
  · exact asks_of_quiet (quiet_changed _) 2
  · exact asks_of_quiet (quiet_closed _) 2
  · exact asks_of_quiet (quiet_configure _) 2
  · exact asks_of_looksUp (looksUp_lookUp _ _ _ _)
  · exact asks_of_looksUp (looksUp_lookUp _ _ _ _)
  · exact asks_of_calm (calm_refuse _ _) 2

/- Handling any other message waits for two rounds at most. -/
theorem asks_handle
    {message : Json}
    (hExit : message.isExit = false)
    (hShutdown : message.isShutdown = false)
    (files : Files) :
    Asks 2 (handle files message) := by
  cases hMethod : message.text? "method" with
  | some method =>
      rw [handle_of_method hMethod]
      apply asks_dispatch
      · intro hSame
        simp [Json.isExit, hMethod, hSame] at hExit
      · intro hSame
        simp [Json.isShutdown, hMethod, hSame] at hShutdown
  | none =>
      rcases handle_of_text?_eq_none hMethod files with
        ⟨r, hHandle⟩ | ⟨e, hHandle⟩
      · rw [hHandle]
        exact asks_of_quiet (quiet_remark r) 2
      · rw [hHandle]
        exact asks_of_quiet (quiet_throw e) 2

end Handler

namespace Turn

/-
  The second turn comes from the first by taking up a message.
  Only an exit and a shutdown change whether the server goes on.
-/
structure TookUp (message : Json) (before after : Turn) : Prop where
  rest_eq :
    after.server.rest =
      { before.server.rest with
        shutdown := before.server.shutdown || message.isShutdown
        exited := before.server.exited || message.isExit }
  outputs : Outputs (before.note (.handled message)) after
  attends : after.Attends
  waiting_of_isExit :
    message.isExit = true → after.server.waiting = none

/- What comes after taking a message up may be added to it. -/
theorem tookUp_of_tried
    {message : Json}
    {before next after : Turn}
    {rounds : Nat}
    (hTookUp : TookUp message before next)
    (hTried : Tried rounds next after)
    (hWaiting :
      next.server.waiting = none → after.server.waiting = none) :
    TookUp message before after where
  rest_eq := hTried.within.rest_eq.trans hTookUp.rest_eq
  outputs := outputs_trans hTookUp.outputs hTried.within.outputs
  attends := hTried.attends
  waiting_of_isExit := fun hExit =>
    hWaiting (hTookUp.waiting_of_isExit hExit)

/- An exit is no shutdown. -/
theorem isShutdown_of_isExit
    {message : Json}
    (hExit : message.isExit = true) :
    message.isShutdown = false := by
  have hMethod : message.text? "method" = some (utf8 "exit") := by
    simpa [Json.isExit] using hExit
  rw [Json.isShutdown, hMethod]
  rfl

/- The attempt at a message that is taken up. -/
theorem tookUp_attempt
    {turn : Turn}
    (hWaiting : turn.server.waiting = none)
    (files : Files)
    (message : Json) :
    TookUp message turn
      ((turn.note (.handled message)).attempt
        (Recipient.ofMessage message)
        (Handler.handle files message)) := by
  by_cases hExit : message.isExit = true
  · rw [Handler.handle_of_isExit hExit]
    refine ⟨?_, outputs_refl _, ?_, fun _ => hWaiting⟩
    · rw [isShutdown_of_isExit hExit, hExit]
      simp [attempt, update, note, Server.rest, Server.course]
    · exact attends_of_waiting_eq_none hWaiting
  · by_cases hShutdown : message.isShutdown = true
    · rw [Handler.handle_of_isShutdown hShutdown,
        attempt_update_bind]
      have hTried :=
        tried_attempt
          (Handler.asks_of_calm
            (Handler.calm_answer (Recipient.ofMessage message) .null) 0
            ((turn.note (.handled message)).update (fun s =>
              { s with shutdown := true })) hWaiting)
          (Recipient.ofMessage message)
      refine ⟨?_, hTried.within.outputs, hTried.attends, ?_⟩
      · rw [hTried.within.rest_eq]
        simp [update, note, Server.rest, Server.course, hExit,
          hShutdown]
      · intro hIs
        exact absurd hIs hExit
    · have hTried :=
        tried_attempt
          (Handler.asks_handle (by simpa using hExit)
            (by simpa using hShutdown) files
            (turn.note (.handled message)) hWaiting)
          (Recipient.ofMessage message)
      refine ⟨?_, hTried.within.outputs, hTried.attends, ?_⟩
      · rw [hTried.within.rest_eq]
        simp [note, Server.rest, Server.course, hExit, hShutdown]
      · intro hIs
        exact absurd hIs hExit

/-
  Taking a message up.  Nothing is waited for then once the
  input has ended.
-/
theorem tookUp_handle
    {turn : Turn}
    (hWaiting : turn.server.waiting = none)
    (files : Files)
    (message : Json) :
    TookUp message turn (turn.handle files message) ∧
      (turn.server.inputClosed = true →
        (turn.handle files message).server.waiting = none) := by
  have hAttempt := tookUp_attempt hWaiting files message
  have hGiveUp := tried_giveUp_giveUp hAttempt.attends
  constructor
  · apply tookUp_of_tried hAttempt hGiveUp.1
    intro hNone
    rw [giveUp_of_waiting_eq_none hNone,
      giveUp_of_waiting_eq_none hNone]
    exact hNone
  · intro hClosed
    apply hGiveUp.2
    have hSame := congrArg Course.inputClosed hAttempt.rest_eq
    exact hSame.trans hClosed

end Turn

------------------------------------------------------------
-- Steps
------------------------------------------------------------

namespace Turn

/-
  What a session does in one step, where all that it takes in
  has arrived.
-/
inductive Step (files : Files) (arrived : Incoming → Prop) :
    Turn → Turn → Prop where
| takeUp
    {turn : Turn}
    {message : Json}
    (hArrived : arrived (.message message))
    (hWaiting : turn.server.waiting = none)
    (hGoesOn : turn.server.isOver = false) :
    Step files arrived turn
      ((turn.note (.handled message)).attempt
        (Recipient.ofMessage message)
        (Handler.handle files message))
| answer
    {turn : Turn}
    {message : Json}
    {waiting : Waiting}
    (hArrived : arrived (.message message))
    (hWaiting : turn.server.waiting = some waiting)
    (hAnswered : waiting.isAnsweredBy message = true) :
    Step files arrived turn
      (((turn.note (.answered message)).noteFailure waiting
        message).attempt waiting.recipient
          (Handler.resume waiting (resultOf? message)))
| giveUp
    {turn : Turn}
    {waiting : Waiting}
    (hWaiting : turn.server.waiting = some waiting)
    (hClosed : turn.server.inputClosed = true) :
    Step files arrived turn
      (turn.attempt waiting.recipient (Handler.resume waiting none))
| interrupt
    {turn : Turn}
    {waiting : Waiting}
    {fault : ReadFault}
    (hArrived : arrived (.unreadable fault))
    (hWaiting : turn.server.waiting = some waiting) :
    Step files arrived turn
      (turn.unwaiting.refuse waiting.recipient (.unreadable fault))
| enqueue
    {turn : Turn}
    {queue : List Json}
    (hArrived : ∀ message ∈ queue, arrived (.message message)) :
    Step files arrived turn
      (turn.update (fun s => { s with queue := queue }))
| close
    {turn : Turn} :
    Step files arrived turn
      (turn.update (fun s => { s with inputClosed := true }))
| crash
    {turn : Turn}
    {fault : ReadFault}
    (hArrived : arrived (.unreadable fault))
    (hWaiting : turn.server.waiting = none) :
    Step files arrived turn
      (turn.update (fun s => { s with crashed := true }))
| remark
    {turn : Turn}
    (r : Diagnostic) :
    Step files arrived turn (turn.note (.remarked r))

/- What a session does in some steps. -/
def Steps (files : Files) (arrived : Incoming → Prop) :
    Turn → Turn → Prop :=
  Relation.ReflTransGen (Step files arrived)

variable {files : Files}
variable {arrived : Incoming → Prop}
variable {turn next : Turn}

/- Giving up is a step, or nothing. -/
theorem steps_giveUp
    (turn : Turn) :
    Steps files arrived turn turn.giveUp := by
  unfold giveUp
  split
  · next waiting hClosed hWaiting =>
      exact Relation.ReflTransGen.single (.giveUp hWaiting hClosed)
  · exact Relation.ReflTransGen.refl

/- Giving up twice takes steps. -/
theorem steps_giveUp_giveUp
    (hSteps : Steps files arrived turn next) :
    Steps files arrived turn next.giveUp.giveUp :=
  (hSteps.trans (steps_giveUp next)).trans (steps_giveUp next.giveUp)

/- Taking a message up takes steps. -/
theorem steps_handle
    {message : Json}
    (hArrived : arrived (.message message))
    (hWaiting : turn.server.waiting = none)
    (hGoesOn : turn.server.isOver = false) :
    Steps files arrived turn (turn.handle files message) := by
  apply steps_giveUp_giveUp
  exact
    Relation.ReflTransGen.single
      (.takeUp hArrived hWaiting hGoesOn)

/-
  Taking up the queue takes steps.  The induction is on the
  queue.
-/
theorem steps_drain
    (queue : List Json) :
    ∀ turn : Turn,
      (∀ message ∈ queue, arrived (.message message)) →
        Steps files arrived turn (drain files queue turn) := by
  induction queue with
  | nil =>
      intro turn hQueue
      exact Relation.ReflTransGen.single (.enqueue hQueue)
  | cons message rest ih =>
      intro turn hQueue
      unfold drain
      split
      · exact Relation.ReflTransGen.single (.enqueue hQueue)
      · next hGoesOn =>
          have hFree :
              turn.server.waiting = none ∧
                turn.server.isOver = false := by
            simpa using hGoesOn
          have hHandle :
              Steps files arrived turn (turn.handle files message) :=
            steps_handle (hQueue message List.mem_cons_self) hFree.1
              hFree.2
          apply Relation.ReflTransGen.trans hHandle
          apply ih
          intro other hOther
          exact hQueue other (List.mem_cons_of_mem message hOther)

/- Taking an answer: outputs follow, and the server may wait again. -/
theorem tried_answer
    (turn : Turn)
    (waiting : Waiting)
    (message : Json) :
    Tried 2 (turn.note (.answered message))
      (((turn.note (.answered message)).noteFailure waiting
        message).attempt waiting.recipient
          (Handler.resume waiting (resultOf? message))) := by
  have hCalm :=
    calm_of_quiet
      (quiet_noteFailure (turn.note (.answered message)) waiting
        message)
  have hTried :=
    tried_attempt
      (Handler.asksAt_resume waiting (resultOf? message)
        ((turn.note (.answered message)).noteFailure waiting message))
      waiting.recipient
  exact
    ⟨within_trans (within_of_calm hCalm) hTried.within,
      hTried.attends, Server.rounds_le_two _⟩

/- Giving up: outputs follow, and the server may wait again. -/
theorem tried_resume_none
    (turn : Turn)
    (waiting : Waiting) :
    Tried 2 turn
      (turn.attempt waiting.recipient
        (Handler.resume waiting none)) := by
  have hTried :=
    tried_attempt (Handler.asksAt_resume waiting none turn)
      waiting.recipient
  exact ⟨hTried.within, hTried.attends, Server.rounds_le_two _⟩

/- Being interrupted: the server waits no more. -/
theorem tried_interrupt
    (turn : Turn)
    (waiting : Waiting)
    (e : HandlerError) :
    Tried 0 turn (turn.unwaiting.refuse waiting.recipient e) := by
  have hCalm := calm_refuse turn.unwaiting waiting.recipient e
  have hStart : Within turn turn.unwaiting :=
    ⟨rfl, outputs_refl turn⟩
  have hWaiting :
      (turn.unwaiting.refuse waiting.recipient e).server.waiting =
        none :=
    waiting_of_calm hCalm
  refine ⟨?_, attends_of_waiting_eq_none hWaiting, ?_⟩
  · exact within_trans hStart (within_of_calm hCalm)
  · exact Nat.le_of_eq (Server.rounds_eq_zero_iff.mpr hWaiting)

------------------------------------------------------------
-- What Every Step Keeps
------------------------------------------------------------

/-
  What holds between the steps of a session: all that is queued
  has arrived, the events say what is waited for, and a server
  that does not go on waits for nothing.
-/
structure Sound (arrived : Incoming → Prop) (turn : Turn) : Prop where
  arrived_of_mem :
    ∀ message ∈ turn.server.queue, arrived (.message message)
  attends : turn.Attends
  waiting_of_isOver :
    turn.server.isOver = true → turn.server.waiting = none

/- The queue stays as it is. -/
theorem queue_of_within
    {before after : Turn}
    (hWithin : Within before after) :
    after.server.queue = before.server.queue :=
  congrArg Course.queue hWithin.rest_eq

/- A server that goes on still does. -/
theorem isOver_of_within
    {before after : Turn}
    (hWithin : Within before after) :
    after.server.isOver = before.server.isOver := by
  have hExited := congrArg Course.exited hWithin.rest_eq
  have hCrashed := congrArg Course.crashed hWithin.rest_eq
  have hExitedEq : after.server.exited = before.server.exited :=
    hExited
  have hCrashedEq : after.server.crashed = before.server.crashed :=
    hCrashed
  rw [Server.isOver, Server.isOver, hExitedEq, hCrashedEq]

/- A server that waits goes on. -/
theorem goesOn_of_waiting
    {waiting : Waiting}
    (hSound : Sound arrived turn)
    (hWaiting : turn.server.waiting = some waiting) :
    turn.server.isOver = false := by
  cases hOver : turn.server.isOver with
  | false => rfl
  | true =>
      have hNone := hSound.waiting_of_isOver hOver
      rw [hWaiting] at hNone
      cases hNone

/- An attempt by a server that goes on. -/
theorem sound_of_tried
    {rounds : Nat}
    (hArrived :
      ∀ message ∈ turn.server.queue, arrived (.message message))
    (hGoesOn : turn.server.isOver = false)
    (hTried : Tried rounds turn next) :
    Sound arrived next where
  arrived_of_mem := by
    rw [queue_of_within hTried.within]
    exact hArrived
  attends := hTried.attends
  waiting_of_isOver := by
    intro hOver
    rw [isOver_of_within hTried.within, hGoesOn] at hOver
    cases hOver

/- Taking a message up. -/
theorem sound_of_tookUp
    {message : Json}
    (hSound : Sound arrived turn)
    (hGoesOn : turn.server.isOver = false)
    (hTookUp : TookUp message turn next) :
    Sound arrived next where
  arrived_of_mem := by
    have hQueue : next.server.queue = turn.server.queue :=
      congrArg Course.queue hTookUp.rest_eq
    rw [hQueue]
    exact hSound.arrived_of_mem
  attends := hTookUp.attends
  waiting_of_isOver := by
    intro hOver
    apply hTookUp.waiting_of_isExit
    have hExited :
        next.server.exited =
          (turn.server.exited || message.isExit) :=
      congrArg Course.exited hTookUp.rest_eq
    have hCrashed : next.server.crashed = turn.server.crashed :=
      congrArg Course.crashed hTookUp.rest_eq
    have hBoth :
        turn.server.exited = false ∧ turn.server.crashed = false := by
      simpa [Server.isOver] using hGoesOn
    simpa [Server.isOver, hExited, hCrashed, hBoth.1, hBoth.2]
      using hOver

/- A new server has taken in nothing. -/
theorem sound_create
    (arrived : Incoming → Prop)
    (engine : BoundedEngine)
    (descriptors : List Descriptor) :
    Sound arrived ⟨Server.create engine descriptors, []⟩ := by
  constructor
  · intro message hMember
    cases hMember
  · exact attends_of_waiting_eq_none rfl
  · intro _
    rfl

/- Every step keeps what holds between steps. -/
theorem sound_of_step
    (hSound : Sound arrived turn)
    (hStep : Step files arrived turn next) :
    Sound arrived next := by
  cases hStep with
  | takeUp hArrived hWaiting hGoesOn =>
      exact
        sound_of_tookUp hSound hGoesOn
          (tookUp_attempt hWaiting files _)
  | @answer message waiting _ hWaiting _ =>
      have hTried := tried_answer turn waiting message
      have hGoesOn := goesOn_of_waiting hSound hWaiting
      refine ⟨?_, hTried.attends, ?_⟩
      · rw [queue_of_within hTried.within]
        exact hSound.arrived_of_mem
      · intro hOver
        rw [isOver_of_within hTried.within] at hOver
        exact absurd hOver (by simp [note, hGoesOn])
  | giveUp hWaiting hClosed =>
      exact
        sound_of_tried hSound.arrived_of_mem
          (goesOn_of_waiting hSound hWaiting)
          (tried_resume_none turn _)
  | interrupt _ hWaiting =>
      exact
        sound_of_tried hSound.arrived_of_mem
          (goesOn_of_waiting hSound hWaiting)
          (tried_interrupt turn _ _)
  | enqueue hArrived =>
      exact ⟨hArrived, hSound.attends, hSound.waiting_of_isOver⟩
  | close =>
      exact
        ⟨hSound.arrived_of_mem, hSound.attends,
          hSound.waiting_of_isOver⟩
  | crash _ hWaiting =>
      exact ⟨hSound.arrived_of_mem, hSound.attends, fun _ => hWaiting⟩
  | remark r =>
      exact
        ⟨hSound.arrived_of_mem, hSound.attends,
          hSound.waiting_of_isOver⟩

/- So do all steps. -/
theorem sound_of_steps
    (hSound : Sound arrived turn)
    (hSteps : Steps files arrived turn next) :
    Sound arrived next := by
  induction hSteps with
  | refl => exact hSound
  | tail _ hStep ih => exact sound_of_step ih hStep

------------------------------------------------------------
-- Sessions
------------------------------------------------------------

/- Going on after a wait, and then with the queue, takes steps. -/
theorem steps_goOn
    {waiting : Waiting}
    {h : Handler Unit}
    {start : Turn}
    (hSound : Sound arrived start)
    (hSteps :
      Steps files arrived start (turn.attempt waiting.recipient h)) :
    Steps files arrived start (turn.goOn files waiting h) := by
  have hGivenUp := steps_giveUp_giveUp hSteps
  apply hGivenUp.trans
  apply steps_drain
  exact (sound_of_steps hSound hGivenUp).arrived_of_mem

/- Taking in what arrives takes steps. -/
theorem steps_receive
    {incoming : Incoming}
    (hSound : Sound arrived turn)
    (hArrived : arrived incoming) :
    Steps files arrived turn (turn.receive files incoming) := by
  unfold receive
  split
  · exact Relation.ReflTransGen.refl
  · next hGoesOn =>
      split
      · next message hWaiting =>
          exact
            steps_handle hArrived hWaiting
              (by simpa using hGoesOn)
      · next message waiting hWaiting =>
          split
          · next hAnswered =>
              apply steps_goOn hSound
              exact
                Relation.ReflTransGen.single
                  (.answer hArrived hWaiting hAnswered)
          · apply Relation.ReflTransGen.single
            apply Step.enqueue
            intro other hOther
            rcases List.mem_append.mp hOther with hOld | hNew
            · exact hSound.arrived_of_mem other hOld
            · have hSame : other = message := by
                simpa using hNew
              rw [hSame]
              exact hArrived
      · exact Relation.ReflTransGen.single (.remark _)
      · exact Relation.ReflTransGen.single (.remark _)
      · next hWaiting =>
          exact
            Relation.ReflTransGen.single (.crash hArrived hWaiting)
      · next waiting hWaiting =>
          apply steps_goOn hSound
          exact
            Relation.ReflTransGen.single (.interrupt hArrived hWaiting)

/- Coming to the end of the input takes steps. -/
theorem steps_finish
    (hSound : Sound arrived turn) :
    Steps files arrived turn (turn.finish files) := by
  unfold finish
  split
  · exact Relation.ReflTransGen.refl
  · have hClosed :
        Steps files arrived turn
          (turn.update (fun s => { s with inputClosed := true })) :=
      Relation.ReflTransGen.single .close
    have hGivenUp := steps_giveUp_giveUp hClosed
    apply hGivenUp.trans
    apply steps_drain
    exact (sound_of_steps hSound hGivenUp).arrived_of_mem

end Turn

namespace Session

open Turn

/- All that arrives can be read. -/
def Held (incoming : List Incoming) : Prop :=
  ∀ item ∈ incoming, ∀ fault, item ≠ .unreadable fault

variable {files : Files}
variable {arrived : Incoming → Prop}

/- Taking in all that arrives takes steps. -/
theorem steps_foldl_receive
    (incoming : List Incoming) :
    ∀ turn : Turn,
      Sound arrived turn →
        (∀ item ∈ incoming, arrived item) →
          Steps files arrived turn
            (incoming.foldl (Turn.receive files) turn) := by
  induction incoming with
  | nil =>
      intro turn _ _
      exact Relation.ReflTransGen.refl
  | cons first rest ih =>
      intro turn hSound hArrived
      have hFirst :
          Steps files arrived turn (turn.receive files first) :=
        steps_receive hSound (hArrived first List.mem_cons_self)
      apply hFirst.trans
      apply ih _ (sound_of_steps hSound hFirst)
      intro item hItem
      exact hArrived item (List.mem_cons_of_mem first hItem)

/- A session takes steps from its start to its end. -/
theorem steps_run
    {server : Server}
    {incoming : List Incoming}
    (hSound : Sound arrived ⟨server, []⟩)
    (hArrived : ∀ item ∈ incoming, arrived item) :
    Steps files arrived ⟨server, []⟩
      (run files server incoming) := by
  have hReceived :
      Steps files arrived ⟨server, []⟩
        (incoming.foldl (Turn.receive files) ⟨server, []⟩) :=
    steps_foldl_receive incoming _ hSound hArrived
  exact
    hReceived.trans (steps_finish (sound_of_steps hSound hReceived))

end Session

namespace Turn

variable {files : Files}
variable {arrived : Incoming → Prop}
variable {turn : Turn}

/-
  Once the input has ended, nothing is waited for after the
  queue is taken up.  The induction is on the queue.
-/
theorem waiting_drain
    (files : Files)
    (queue : List Json) :
    ∀ turn : Turn,
      turn.server.inputClosed = true →
        turn.server.waiting = none →
          (drain files queue turn).server.waiting = none := by
  induction queue with
  | nil =>
      intro turn _ hWaiting
      exact hWaiting
  | cons message rest ih =>
      intro turn hClosed hWaiting
      unfold drain
      split
      · exact hWaiting
      · have hHandle := tookUp_handle hWaiting files message
        have hSame :
            (turn.handle files message).server.inputClosed =
              turn.server.inputClosed :=
          congrArg Course.inputClosed hHandle.1.rest_eq
        exact ih _ (hSame.trans hClosed) (hHandle.2 hClosed)

/- At the end of the input nothing is waited for. -/
theorem waiting_finish
    (hSound : Sound arrived turn)
    (files : Files) :
    (turn.finish files).server.waiting = none := by
  unfold finish
  split
  · next hOver => exact hSound.waiting_of_isOver hOver
  · have hClosed :
        (turn.update (fun s =>
          { s with inputClosed := true })).Attends :=
      hSound.attends
    have hGivenUp := tried_giveUp_giveUp hClosed
    apply waiting_drain
    · exact inputClosed_of_within hGivenUp.1.within
    · exact hGivenUp.2 rfl

end Turn

/- At the end of a session nothing is waited for. -/
theorem Session.waiting_run
    {arrived : Incoming → Prop}
    {server : Server}
    {incoming : List Incoming}
    (hSound : Turn.Sound arrived ⟨server, []⟩)
    (hArrived : ∀ item ∈ incoming, arrived item)
    (files : Files) :
    (Session.run files server incoming).server.waiting = none := by
  apply Turn.waiting_finish
  exact
    Turn.sound_of_steps hSound
      (Session.steps_foldl_receive incoming ⟨server, []⟩ hSound
        hArrived)

end Marginalia

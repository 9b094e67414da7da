import Marginalia.Proofs.Server.Outcomes

/-
  This file says what the handling of a message leaves alone.

  Most handlers change what the server knows, but not its
  course: what it waits for, its queue, and whether it goes on.
  They are calm.  Those that look comments up are calm except
  that they may end by waiting; the last frame that they sent
  is then the request whose answer they wait for, and they did
  not fail.

  Key definitions include:
    * `Course`, `Turn.Calm`, `Turn.Within`
    * `Session.awaited?`, `Turn.Attends`
    * `Server.rounds`
    * `Handler.Asks`
  The main statements are:
    * `Handler.asks_of_looksUp`
    * `Handler.asksAt_resume`
-/

namespace Marginalia

------------------------------------------------------------
-- The Course of a Server
------------------------------------------------------------

/- What decides how a server goes on. -/
structure Course where
  waiting : Option Waiting
  queue : List Json
  inputClosed : Bool
  shutdown : Bool
  exited : Bool
  crashed : Bool

/- The course of a server. -/
def Server.course (server : Server) : Course :=
  { waiting := server.waiting
    queue := server.queue
    inputClosed := server.inputClosed
    shutdown := server.shutdown
    exited := server.exited
    crashed := server.crashed }

/- The course without what is waited for. -/
def Server.rest (server : Server) : Course :=
  { server.course with waiting := none }

/- The event is a frame that was sent or a remark. -/
def Event.isOutput : Event → Bool
| .sent _ => true
| .remarked _ => true
| .handled _ => false
| .answered _ => false

namespace Turn

/- Between the turns there are only outputs. -/
def Outputs (before after : Turn) : Prop :=
  ∃ news,
    after.events = news ++ before.events ∧
      ∀ event ∈ news, event.isOutput = true

/- The second turn comes from the first with the same course. -/
structure Calm (before after : Turn) : Prop where
  course_eq : after.server.course = before.server.course
  outputs : Outputs before after

/-
  The second turn comes from the first with the same course but
  for what is waited for.
-/
structure Within (before after : Turn) : Prop where
  rest_eq : after.server.rest = before.server.rest
  outputs : Outputs before after

theorem outputs_refl
    (turn : Turn) :
    Outputs turn turn :=
  ⟨[], rfl, by simp⟩

theorem outputs_trans
    ⦃a b c : Turn⦄
    (hFirst : Outputs a b)
    (hSecond : Outputs b c) :
    Outputs a c := by
  rcases hFirst with ⟨first, hFirstEq, hFirstOut⟩
  rcases hSecond with ⟨second, hSecondEq, hSecondOut⟩
  refine ⟨second ++ first, ?_, ?_⟩
  · rw [hSecondEq, hFirstEq, List.append_assoc]
  · intro event hEvent
    rcases List.mem_append.mp hEvent with hNew | hOld
    · exact hSecondOut event hNew
    · exact hFirstOut event hOld

/- One more output. -/
theorem outputs_note
    (turn : Turn)
    {event : Event}
    (hEvent : event.isOutput = true) :
    Outputs turn (turn.note event) :=
  ⟨[event], rfl, by simpa using hEvent⟩

theorem calm_refl
    (turn : Turn) :
    Calm turn turn :=
  ⟨rfl, outputs_refl turn⟩

theorem calm_trans
    ⦃a b c : Turn⦄
    (hFirst : Calm a b)
    (hSecond : Calm b c) :
    Calm a c :=
  ⟨hSecond.course_eq.trans hFirst.course_eq,
    outputs_trans hFirst.outputs hSecond.outputs⟩

/- An output leaves the course as it is. -/
theorem calm_note
    (turn : Turn)
    {event : Event}
    (hEvent : event.isOutput = true) :
    Calm turn (turn.note event) :=
  ⟨rfl, outputs_note turn hEvent⟩

/- A change of what the server knows leaves its course as it is. -/
theorem calm_update
    {f : Server → Server}
    (hCourse : ∀ server, (f server).course = server.course)
    (turn : Turn) :
    Calm turn (turn.update f) :=
  ⟨hCourse turn.server, outputs_refl turn⟩

theorem within_refl
    (turn : Turn) :
    Within turn turn :=
  ⟨rfl, outputs_refl turn⟩

theorem within_trans
    ⦃a b c : Turn⦄
    (hFirst : Within a b)
    (hSecond : Within b c) :
    Within a c :=
  ⟨hSecond.rest_eq.trans hFirst.rest_eq,
    outputs_trans hFirst.outputs hSecond.outputs⟩

theorem within_of_calm
    {before after : Turn}
    (hCalm : Calm before after) :
    Within before after :=
  ⟨congrArg (fun c : Course => { c with waiting := none })
      hCalm.course_eq,
    hCalm.outputs⟩

/- A quiet turn is calm. -/
theorem calm_of_quiet
    {before after : Turn}
    (hQuiet : Quiet before after) :
    Calm before after := by
  rcases hQuiet with ⟨⟨documents, service, hServer⟩, remarks, hEvents⟩
  refine ⟨?_, remarks.map Event.remarked, hEvents, ?_⟩
  · rw [hServer]
    rfl
  · intro event hEvent
    rcases List.mem_map.mp hEvent with ⟨r, _, hRemark⟩
    rw [← hRemark]
    rfl

/- A lookup changes no more of the course than what is waited for. -/
theorem within_of_lookedUp
    {recipient : Recipient}
    {purpose : Purpose}
    {rounds : Nat}
    {Result : Json → Prop}
    {before : Turn}
    {outcome : Except HandlerError Unit × Turn}
    (hLookedUp :
      LookedUp recipient purpose rounds Result before outcome) :
    Within before outcome.2 := by
  have hStart :
      ∀ {next : Turn}, Quiet before next → Within before next :=
    fun hQuiet => within_of_calm (calm_of_quiet hQuiet)
  cases hLookedUp with
  | answered hQuiet _ =>
      apply within_trans (hStart hQuiet)
      exact within_of_calm (calm_note _ rfl)
  | @asked next _ _ hQuiet _ _ =>
      apply within_trans (hStart hQuiet)
      exact ⟨rfl, outputs_note next rfl⟩
  | failed hQuiet => exact hStart hQuiet
  | @unsent next _ _ hQuiet _ _ =>
      apply within_trans (hStart hQuiet)
      exact ⟨rfl, outputs_refl next⟩

/- What is waited for stays the same. -/
theorem waiting_of_calm
    {before after : Turn}
    (hCalm : Calm before after) :
    after.server.waiting = before.server.waiting :=
  congrArg Course.waiting hCalm.course_eq

end Turn

------------------------------------------------------------
-- What Is Waited For
------------------------------------------------------------

/-
  The `id` of the answer that is waited for, judging by the
  events, the latest first: the last frame that was sent was a
  request, and no message was taken up or taken as an answer
  since.
-/
def Session.awaited? : List Event → Option Bytes
| [] => none
| .remarked _ :: events => awaited? events
| .sent frame :: _ =>
    if (frame.get? "method").isSome then frame.text? "id" else none
| .handled _ :: _ => none
| .answered _ :: _ => none

/- What the server waits for is what the events say. -/
def Turn.Attends (turn : Turn) : Prop :=
  ∀ waiting ∈ turn.server.waiting,
    Session.awaited? turn.events = some waiting.request

/- How often the message in progress may go on without an answer. -/
def Server.rounds (server : Server) : Nat :=
  match server.waiting with
  | none => 0
  | some waiting => waiting.rounds

/- The rounds of a server that waits. -/
theorem Server.rounds_of_waiting
    {server : Server}
    {waiting : Waiting}
    (hWaiting : server.waiting = some waiting) :
    server.rounds = waiting.rounds := by
  simp [rounds, hWaiting]

/- There are never more than two rounds to go. -/
theorem Server.rounds_le_two
    (server : Server) :
    server.rounds ≤ 2 := by
  cases hWaiting : server.waiting with
  | none => simp [rounds, hWaiting]
  | some waiting =>
      rw [rounds_of_waiting hWaiting]
      cases waiting <;> simp [Waiting.rounds]

/- A server with no rounds to go waits for nothing. -/
theorem Server.rounds_eq_zero_iff
    {server : Server} :
    server.rounds = 0 ↔ server.waiting = none := by
  cases hWaiting : server.waiting with
  | none => simp [rounds, hWaiting]
  | some waiting =>
      rw [rounds_of_waiting hWaiting]
      cases waiting <;> simp [Waiting.rounds]

/- The turn, waiting for nothing. -/
def Turn.unwaiting (turn : Turn) : Turn :=
  turn.update (fun s => { s with waiting := none })

/- What is quiet stays so if nothing is waited for. -/
theorem Turn.quiet_unwaiting
    {before after : Turn}
    (hQuiet : Quiet before after) :
    Quiet before.unwaiting after.unwaiting := by
  rcases hQuiet.server_eq with ⟨documents, service, hServer⟩
  refine ⟨⟨documents, service, ?_⟩, hQuiet.events_eq⟩
  rw [unwaiting, update, hServer]
  rfl

/- A turn that waits for nothing attends to nothing. -/
theorem Turn.attends_of_waiting_eq_none
    {turn : Turn}
    (hWaiting : turn.server.waiting = none) :
    turn.Attends := by
  intro waiting hMember
  rw [hWaiting] at hMember
  cases hMember

------------------------------------------------------------
-- Handlers That May Wait
------------------------------------------------------------

namespace Handler

variable {α : Type}

/-
  From a turn the handler changes no more of the course than
  what is waited for.  If it waits then for at most so many
  rounds, it did not fail, and the events say what it waits for.
-/
structure AsksAt
    (rounds : Nat)
    (h : Handler Unit)
    (turn : Turn) : Prop where
  within : Turn.Within turn (h.runFrom turn).2
  attends : (h.runFrom turn).2.Attends
  rounds_le : (h.runFrom turn).2.server.rounds ≤ rounds
  waiting_of_error :
    ∀ {e : HandlerError},
      (h.runFrom turn).1 = .error e →
        (h.runFrom turn).2.server.waiting = none

/- The handler does so from every turn that waits for nothing. -/
def Asks (rounds : Nat) (h : Handler Unit) : Prop :=
  ∀ turn, turn.server.waiting = none → AsksAt rounds h turn

/- A run after which nothing is waited for. -/
theorem asksAt_of_waiting_eq_none
    {h : Handler Unit}
    {turn : Turn}
    (hWithin : Turn.Within turn (h.runFrom turn).2)
    (hWaiting : (h.runFrom turn).2.server.waiting = none)
    (rounds : Nat) :
    AsksAt rounds h turn where
  within := hWithin
  attends := Turn.attends_of_waiting_eq_none hWaiting
  rounds_le := by
    rw [Server.rounds_eq_zero_iff.mpr hWaiting]
    exact Nat.zero_le rounds
  waiting_of_error := fun _ => hWaiting

/- A calm handler asks for nothing. -/
theorem asks_of_calm
    {h : Handler Unit}
    (hCalm : Keeps Turn.Calm h)
    (rounds : Nat) :
    Asks rounds h := by
  intro turn hWaiting
  apply asksAt_of_waiting_eq_none (Turn.within_of_calm (hCalm turn))
  rw [Turn.waiting_of_calm (hCalm turn)]
  exact hWaiting

/- A quiet handler asks for nothing. -/
theorem asks_of_quiet
    {h : Handler Unit}
    (hQuiet : Keeps Turn.Quiet h)
    (rounds : Nat) :
    Asks rounds h :=
  asks_of_calm (fun turn => Turn.calm_of_quiet (hQuiet turn)) rounds

/-
  A lookup asks.  The request that it sends is then the last
  frame that was sent.
-/
theorem asks_of_looksUp
    {recipient : Recipient}
    {purpose : Purpose}
    {rounds : Nat}
    {Result : Json → Prop}
    {h : Handler Unit}
    (hLooksUp : LooksUp recipient purpose rounds Result h) :
    Asks rounds h := by
  intro turn hWaiting
  have hWithin := Turn.within_of_lookedUp (hLooksUp turn)
  rcases Turn.waits_of_lookedUp hWaiting (hLooksUp turn) with
    hNone | ⟨next, request, waiting, hAsked, hRounds, hRun⟩
  · exact asksAt_of_waiting_eq_none hWithin hNone rounds
  · refine ⟨hWithin, ?_, ?_, ?_⟩
    · rw [hRun]
      intro w hMember
      have hSame : waiting = w := Option.some.inj hMember
      rw [← hSame, Turn.request_of_asked hAsked]
      rfl
    · rw [hRun]
      exact hRounds
    · intro e hError
      rw [hRun] at hError
      cases hError

------------------------------------------------------------
-- Calm Handlers
------------------------------------------------------------

theorem calm_server :
    Keeps Turn.Calm server :=
  keeps_server Turn.calm_refl

/- Changing what the server knows. -/
theorem calm_update
    {f : Server → Server}
    (hCourse : ∀ server, (f server).course = server.course) :
    Keeps Turn.Calm (update f) :=
  fun turn => Turn.calm_update hCourse turn

theorem calm_pure
    (value : α) :
    Keeps Turn.Calm (pure value : Handler α) :=
  keeps_pure Turn.calm_refl value

theorem calm_send
    (frame : Json) :
    Keeps Turn.Calm (send frame) :=
  keeps_send Turn.calm_refl (fun turn => Turn.calm_note turn rfl)

theorem calm_answer
    (recipient : Recipient)
    (result : Json) :
    Keeps Turn.Calm (answer recipient result) :=
  calm_send (resultFrame recipient result)

theorem calm_remark
    (r : Diagnostic) :
    Keeps Turn.Calm (remark r) :=
  fun turn => Turn.calm_note turn rfl

theorem calm_bind
    {β : Type}
    {h : Handler α}
    {k : α → Handler β}
    (hFirst : Keeps Turn.Calm h)
    (hSecond : ∀ value, Keeps Turn.Calm (k value)) :
    Keeps Turn.Calm (h >>= k) :=
  keeps_bind Turn.calm_trans hFirst hSecond

/- Setting the server up. -/
theorem calm_setUp
    (recipient : Recipient)
    (params : Json) :
    Keeps Turn.Calm (setUp recipient params) := by
  unfold setUp
  dsimp only
  refine calm_bind (calm_update (fun _ => rfl)) ?_
  intro _
  refine calm_bind calm_server ?_
  intro s
  refine calm_bind (calm_remark _) ?_
  intro _
  exact calm_send _

/- Refusing a message. -/
theorem calm_refuse
    (recipient : Recipient)
    (method : Bytes) :
    Keeps Turn.Calm (refuse recipient method) := by
  unfold refuse
  split
  · exact calm_pure ()
  · exact calm_send _

------------------------------------------------------------
-- Going On
------------------------------------------------------------

/- Going on with a result or without one leaves one round fewer to go. -/
theorem asksAt_resume
    (waiting : Waiting)
    (result? : Option Json)
    (turn : Turn) :
    AsksAt (waiting.rounds - 1) (resume waiting result?) turn := by
  have hOut :
      (resume waiting result?).runFrom turn =
        (proceed result? waiting).runFrom turn.unwaiting := rfl
  have hAt :=
    asks_of_looksUp (looksUp_proceed result? waiting)
      turn.unwaiting rfl
  have hStart : Turn.Within turn turn.unwaiting :=
    ⟨rfl, Turn.outputs_refl turn⟩
  refine ⟨?_, ?_, ?_, ?_⟩
  · rw [hOut]
    exact Turn.within_trans hStart hAt.within
  · rw [hOut]
    exact hAt.attends
  · rw [hOut]
    exact hAt.rounds_le
  · rw [hOut]
    exact hAt.waiting_of_error

end Handler

end Marginalia

import Marginalia.Proofs.Server.Runs

/-
  This file says what the handlers can come to, once for each of
  them.

  Handlers that only read, learn and remark are quiet: the
  documents and the service of the server change at most, and
  nothing is sent.  A lookup is quiet up to its last act.  It
  answers, or asks for something and waits, or fails.

  Key definitions include:
    * `Turn.Quiet`
    * `Turn.Asked`, `Turn.askingFor`
    * `Turn.LookedUp`
    * `Waiting.purpose`, `Waiting.Shows`
  The main statements are:
    * `Handler.looksUp_lookUp`
    * `Handler.looksUp_proceed`
-/

namespace Marginalia

------------------------------------------------------------
-- Quiet Turns
------------------------------------------------------------

namespace Turn

/-
  The second turn comes from the first by remarks and by other
  documents or another service.
-/
structure Quiet (before after : Turn) : Prop where
  server_eq :
    ∃ documents service,
      after.server =
        { before.server with
          documents := documents
          service := service }
  events_eq :
    ∃ remarks : List Diagnostic,
      after.events = remarks.map Event.remarked ++ before.events

theorem quiet_refl
    (turn : Turn) :
    Quiet turn turn :=
  ⟨⟨_, _, rfl⟩, [], rfl⟩

theorem quiet_trans
    ⦃a b c : Turn⦄
    (hFirst : Quiet a b)
    (hSecond : Quiet b c) :
    Quiet a c := by
  rcases hFirst with ⟨⟨_, _, hServer⟩, remarks, hEvents⟩
  rcases hSecond with ⟨⟨documents, service, hLater⟩, more, hMore⟩
  refine ⟨⟨documents, service, ?_⟩, more ++ remarks, ?_⟩
  · rw [hLater, hServer]
  · rw [hMore, hEvents, List.map_append, List.append_assoc]

/- A remark is quiet. -/
theorem quiet_remark
    (turn : Turn)
    (r : Diagnostic) :
    Quiet turn (turn.note (.remarked r)) :=
  ⟨⟨_, _, rfl⟩, [r], rfl⟩

/- So is noting that the client failed to answer. -/
theorem quiet_noteFailure
    (turn : Turn)
    (waiting : Waiting)
    (message : Json) :
    Quiet turn (turn.noteFailure waiting message) := by
  unfold noteFailure
  split
  · exact quiet_refl turn
  · exact quiet_remark turn _

section Unchanged

variable {before after : Turn}

/- What is waited for stays the same. -/
theorem waiting_of_quiet
    (hQuiet : Quiet before after) :
    after.server.waiting = before.server.waiting := by
  rcases hQuiet.server_eq with ⟨documents, service, hServer⟩
  rw [hServer]

/- So does the number of the next request. -/
theorem nextRequest_of_quiet
    (hQuiet : Quiet before after) :
    after.server.nextRequest = before.server.nextRequest := by
  rcases hQuiet.server_eq with ⟨documents, service, hServer⟩
  rw [hServer]

/- So does whether the client can be asked for its selection. -/
theorem asksSelection_of_quiet
    (hQuiet : Quiet before after) :
    after.server.asksSelection = before.server.asksSelection := by
  rcases hQuiet.server_eq with ⟨documents, service, hServer⟩
  rw [hServer]

/- So does whether it can be asked for a gloss. -/
theorem asksGloss_of_quiet
    (hQuiet : Quiet before after) :
    after.server.asksGloss = before.server.asksGloss := by
  rcases hQuiet.server_eq with ⟨documents, service, hServer⟩
  rw [hServer]

end Unchanged

end Turn

------------------------------------------------------------
-- Quiet Handlers
------------------------------------------------------------

namespace Handler

variable {α : Type}

/- Only documents and the service are changed. -/
def Learns (f : Server → Server) : Prop :=
  ∀ s : Server,
    ∃ documents service,
      f s = { s with documents := documents, service := service }

theorem quiet_read
    (result : Except JsonError α) :
    Keeps Turn.Quiet (read result) :=
  keeps_read Turn.quiet_refl result

theorem quiet_server :
    Keeps Turn.Quiet server :=
  keeps_server Turn.quiet_refl

theorem quiet_pure
    (value : α) :
    Keeps Turn.Quiet (pure value : Handler α) :=
  keeps_pure Turn.quiet_refl value

theorem quiet_throw
    (e : HandlerError) :
    Keeps Turn.Quiet (throw e : Handler α) :=
  keeps_throw Turn.quiet_refl e

theorem quiet_remark
    (r : Diagnostic) :
    Keeps Turn.Quiet (remark r) :=
  fun turn => Turn.quiet_remark turn r

theorem quiet_remarks
    (remarks : List Diagnostic) :
    Keeps Turn.Quiet (remarks.forM remark) :=
  keeps_remarks Turn.quiet_refl Turn.quiet_trans quiet_remark remarks

/- Learning is quiet. -/
theorem quiet_update
    {f : Server → Server}
    (hLearns : Learns f) :
    Keeps Turn.Quiet (update f) :=
  fun turn => ⟨hLearns turn.server, [], rfl⟩

theorem quiet_bind
    {β : Type}
    {h : Handler α}
    {k : α → Handler β}
    (hFirst : Keeps Turn.Quiet h)
    (hSecond : ∀ value, Keeps Turn.Quiet (k value)) :
    Keeps Turn.Quiet (h >>= k) :=
  keeps_bind Turn.quiet_trans hFirst hSecond

/- Changing the configuration. -/
theorem quiet_configure
    (params : Json) :
    Keeps Turn.Quiet (configure params) := by
  unfold configure
  split
  · exact quiet_pure ()
  · exact quiet_update (fun _ => ⟨_, _, rfl⟩)

/- Forgetting what was tokenized of a document. -/
theorem learns_forgetAt
    (server : Server)
    (uri : Bytes) :
    ∃ service,
      server.forgetAt uri = { server with service := service } := by
  unfold Server.forgetAt
  split
  · exact ⟨_, rfl⟩
  · exact ⟨_, rfl⟩

/- Opening a document. -/
theorem quiet_opened
    (params : Json) :
    Keeps Turn.Quiet (opened params) := by
  unfold opened
  refine quiet_bind (quiet_read _) ?_
  intro document
  apply quiet_update
  intro s
  rcases learns_forgetAt s document.uri with ⟨service, hForget⟩
  simp only [hForget]
  exact ⟨_, _, rfl⟩

/- Making the edits of a document. -/
theorem quiet_applyChanges
    (version : Int)
    (changes : List Json) :
    ∀ document : Document,
      Keeps Turn.Quiet (applyChanges version document changes) := by
  induction changes with
  | nil =>
      intro document
      exact quiet_pure ()
  | cons change changes ih =>
      intro document
      refine quiet_bind (quiet_read _) ?_
      intro edit
      refine quiet_bind (quiet_update (fun _ => ⟨_, _, rfl⟩)) ?_
      intro _
      exact ih _

/- Changing a document. -/
theorem quiet_changed
    (params : Json) :
    Keeps Turn.Quiet (changed params) := by
  unfold changed
  refine quiet_bind (quiet_read _) ?_
  intro uri
  refine quiet_bind quiet_server ?_
  intro s
  split
  · exact quiet_pure ()
  · refine quiet_bind (quiet_read _) ?_
    intro version
    refine quiet_bind (quiet_read _) ?_
    intro changes
    refine quiet_bind (quiet_applyChanges _ _ _) ?_
    intro _
    exact quiet_update (fun _ => ⟨_, _, rfl⟩)

/- Closing a document. -/
theorem quiet_closed
    (params : Json) :
    Keeps Turn.Quiet (closed params) := by
  unfold closed
  refine quiet_bind (quiet_read _) ?_
  intro uri
  apply quiet_update
  intro s
  rcases learns_forgetAt s uri with ⟨service, hForget⟩
  simp only [hForget]
  exact ⟨_, _, rfl⟩

/- Finding the grammar of a language. -/
theorem quiet_grammarFor
    (files : Files)
    (language : Bytes) :
    Keeps Turn.Quiet (grammarFor files language) := by
  unfold grammarFor
  refine quiet_bind quiet_server ?_
  intro s
  dsimp only
  refine quiet_bind (quiet_update (fun _ => ⟨_, _, rfl⟩)) ?_
  intro _
  refine quiet_bind (quiet_remarks _) ?_
  intro _
  split
  · exact quiet_pure _
  · exact quiet_throw _

end Handler

------------------------------------------------------------
-- What a Lookup Comes To
------------------------------------------------------------

/-
  How often a message may go on without an answer: a lookup asks
  for a selection first, and then for a gloss.
-/
def Waiting.rounds : Waiting → Nat
| .selection _ _ => 2
| .gloss _ _ _ => 1

/- What the lookup that waits is for. -/
def Waiting.purpose : Waiting → Purpose
| .selection _ inquiry => inquiry.purpose
| .gloss _ _ _ => .hover

/- A result that a lookup without a gloss may be answered with. -/
def Purpose.Shows (purpose : Purpose) (result : Json) : Prop :=
  purpose = .hover →
    result = .null ∨
      ∃ block, result = Handler.hoverResult block none

/-
  A result that a lookup may be answered with after its wait: a
  hover that waited for a gloss shows the one that it was given.
-/
def Waiting.Shows
    (result? : Option Json)
    (result : Json) : Waiting → Prop
| .selection _ inquiry => inquiry.purpose.Shows result
| .gloss _ _ block =>
    result =
      Handler.hoverResult block (result?.bind Gloss.ofResult?)

namespace Turn

/-
  What a lookup may ask for, and what it waits for then.  The
  client is asked only if it said that it can be.
-/
inductive Asked
    (recipient : Recipient)
    (purpose : Purpose)
    (turn : Turn) : Request → Waiting → Prop
| selection
    (inquiry : Inquiry)
    (hAsks : turn.server.asksSelection = true)
    (hRecipient : inquiry.recipient = recipient)
    (hPurpose : inquiry.purpose = purpose) :
    Asked recipient purpose turn
      (Handler.selectionRequest inquiry.document inquiry.position)
      (.selection (Handler.nextId turn) inquiry)
| gloss
    {request : Request}
    {target : Bytes}
    {block : CommentBlock}
    (hAsks : turn.server.asksGloss = true)
    (hPurpose : purpose = .hover)
    (hRequest : Gloss.request? block.spelled target = some request) :
    Asked recipient purpose turn request
      (.gloss (Handler.nextId turn) recipient block)

/- The frame of the next request. -/
def nextFrame (turn : Turn) (request : Request) : Json :=
  Handler.requestFrame (Handler.nextId turn) request

/- A request is sent, and its answer is waited for. -/
def askingFor
    (turn : Turn)
    (request : Request)
    (waiting : Waiting) : Turn :=
  ((Handler.counted turn).note
    (.sent (turn.nextFrame request))).update
      (fun s => { s with waiting := some waiting })

/-
  What a lookup comes to.  It is quiet up to the point where it
  answers, or asks for something that may be waited for so many
  rounds, or fails.  A request that cannot be sent is numbered
  all the same.
-/
inductive LookedUp
    (recipient : Recipient)
    (purpose : Purpose)
    (rounds : Nat)
    (Result : Json → Prop)
    (before : Turn) : Except HandlerError Unit × Turn → Prop
| answered
    {next : Turn}
    {result : Json}
    (hQuiet : Quiet before next)
    (hResult : Result result) :
    LookedUp recipient purpose rounds Result before
      (.ok (),
        next.note (.sent (Handler.resultFrame recipient result)))
| asked
    {next : Turn}
    {request : Request}
    {waiting : Waiting}
    (hQuiet : Quiet before next)
    (hAsked : Asked recipient purpose next request waiting)
    (hRounds : waiting.rounds ≤ rounds)
    (hFrame : (next.nextFrame request).isPrintable = true) :
    LookedUp recipient purpose rounds Result before
      (.ok (), next.askingFor request waiting)
| failed
    {next : Turn}
    {e : HandlerError}
    (hQuiet : Quiet before next) :
    LookedUp recipient purpose rounds Result before (.error e, next)
| unsent
    {next : Turn}
    {request : Request}
    {waiting : Waiting}
    (hQuiet : Quiet before next)
    (hAsked : Asked recipient purpose next request waiting)
    (hFrame : (next.nextFrame request).isPrintable = false) :
    LookedUp recipient purpose rounds Result before
      (.error .unprintable, Handler.counted next)

/- A quiet start changes nothing about it. -/
theorem lookedUp_of_quiet
    {recipient : Recipient}
    {purpose : Purpose}
    {rounds : Nat}
    {Result : Json → Prop}
    {before next : Turn}
    {outcome : Except HandlerError Unit × Turn}
    (hQuiet : Quiet before next)
    (hLookedUp :
      LookedUp recipient purpose rounds Result next outcome) :
    LookedUp recipient purpose rounds Result before outcome := by
  cases hLookedUp with
  | answered hLater hResult =>
      exact .answered (quiet_trans hQuiet hLater) hResult
  | asked hLater hAsked hRounds hFrame =>
      exact .asked (quiet_trans hQuiet hLater) hAsked hRounds hFrame
  | failed hLater => exact .failed (quiet_trans hQuiet hLater)
  | unsent hLater hAsked hFrame =>
      exact .unsent (quiet_trans hQuiet hLater) hAsked hFrame

/- The request that was sent is the one that is waited for. -/
theorem request_of_asked
    {recipient : Recipient}
    {purpose : Purpose}
    {turn : Turn}
    {request : Request}
    {waiting : Waiting}
    (hAsked : Asked recipient purpose turn request waiting) :
    waiting.request = Handler.nextId turn := by
  cases hAsked <;> rfl

/- A lookup that did not wait before waits only if it asked. -/
theorem waits_of_lookedUp
    {recipient : Recipient}
    {purpose : Purpose}
    {rounds : Nat}
    {Result : Json → Prop}
    {before : Turn}
    {outcome : Except HandlerError Unit × Turn}
    (hWaiting : before.server.waiting = none)
    (hLookedUp :
      LookedUp recipient purpose rounds Result before outcome) :
    outcome.2.server.waiting = none ∨
      ∃ next request waiting,
        Asked recipient purpose next request waiting ∧
          waiting.rounds ≤ rounds ∧
            outcome = (.ok (), next.askingFor request waiting) := by
  cases hLookedUp with
  | answered hQuiet _ =>
      exact Or.inl ((waiting_of_quiet hQuiet).trans hWaiting)
  | failed hQuiet =>
      exact Or.inl ((waiting_of_quiet hQuiet).trans hWaiting)
  | unsent hQuiet _ _ =>
      exact Or.inl ((waiting_of_quiet hQuiet).trans hWaiting)
  | asked _ hAsked hRounds _ =>
      exact Or.inr ⟨_, _, _, hAsked, hRounds, rfl⟩

end Turn

------------------------------------------------------------
-- Lookups
------------------------------------------------------------

namespace Handler

variable {α : Type}

/- Every run of the handler is that of a lookup. -/
def LooksUp
    (recipient : Recipient)
    (purpose : Purpose)
    (rounds : Nat)
    (Result : Json → Prop)
    (h : Handler Unit) : Prop :=
  ∀ turn : Turn,
    Turn.LookedUp recipient purpose rounds Result turn
      (h.runFrom turn)

variable {recipient : Recipient}
variable {purpose : Purpose}
variable {rounds : Nat}
variable {Result : Json → Prop}

/- A lookup may begin with a quiet piece. -/
theorem looksUp_bind
    {h : Handler α}
    {k : α → Handler Unit}
    (hQuiet : Keeps Turn.Quiet h)
    (hLooksUp :
      ∀ value, LooksUp recipient purpose rounds Result (k value)) :
    LooksUp recipient purpose rounds Result (h >>= k) := by
  intro turn
  have hFirst := hQuiet turn
  cases hRun : h.runFrom turn with
  | mk result next =>
      rw [hRun] at hFirst
      cases result with
      | ok value =>
          rw [runFrom_bind_of_ok hRun]
          exact Turn.lookedUp_of_quiet hFirst (hLooksUp value next)
      | error e =>
          rw [runFrom_bind_of_error hRun]
          exact .failed hFirst

/- A lookup may look at the server it runs on. -/
theorem looksUp_server_bind
    {k : Server → Handler Unit}
    (hLookedUp :
      ∀ turn : Turn,
        Turn.LookedUp recipient purpose rounds Result turn
          ((k turn.server).runFrom turn)) :
    LooksUp recipient purpose rounds Result (server >>= k) := by
  intro turn
  rw [runFrom_server_bind]
  exact hLookedUp turn

/- A failure. -/
theorem looksUp_throw
    (e : HandlerError) :
    LooksUp recipient purpose rounds Result (throw e) :=
  fun turn => .failed (Turn.quiet_refl turn)

/- An answer, or a failure if it is not UTF-8. -/
theorem looksUp_answer
    {result : Json}
    (hResult : Result result) :
    LooksUp recipient purpose rounds Result
      (answer recipient result) := by
  intro turn
  unfold answer
  by_cases hFrame :
      (resultFrame recipient result).isPrintable = true
  · rw [runFrom_send_of_isPrintable hFrame]
    exact .answered (Turn.quiet_refl turn) hResult
  · rw [runFrom_send_of_not_isPrintable hFrame]
    exact .failed (Turn.quiet_refl turn)

/- A request whose answer is waited for. -/
theorem lookedUp_ask_wait
    {turn : Turn}
    {request : Request}
    {waiting : Bytes → Waiting}
    (hAsked :
      Turn.Asked recipient purpose turn request
        (waiting (nextId turn)))
    (hRounds : (waiting (nextId turn)).rounds ≤ rounds) :
    Turn.LookedUp recipient purpose rounds Result turn
      ((ask request >>= fun id => wait (waiting id)).runFrom
        turn) := by
  by_cases hFrame : (turn.nextFrame request).isPrintable = true
  · rw [runFrom_bind_of_ok (runFrom_ask_of_isPrintable hFrame)]
    exact .asked (Turn.quiet_refl turn) hAsked hRounds hFrame
  · rw [runFrom_bind_of_error (runFrom_ask_of_not_isPrintable hFrame)]
    exact
      .unsent (Turn.quiet_refl turn) hAsked (by simpa using hFrame)

/- Showing a comment asks for a gloss at most. -/
theorem looksUp_deliverHover
    (hRounds : 1 ≤ rounds)
    (recipient : Recipient)
    (block : CommentBlock) :
    LooksUp recipient .hover rounds Purpose.hover.Shows
      (deliverHover recipient block) := by
  unfold deliverHover
  apply looksUp_server_bind
  intro turn
  dsimp only
  split
  · exact looksUp_answer (fun _ => Or.inr ⟨block, rfl⟩) turn
  · next request hRequest =>
      apply lookedUp_ask_wait
      · cases hAsks : turn.server.asksGloss with
        | true =>
            rw [hAsks] at hRequest
            exact .gloss hAsks rfl hRequest
        | false =>
            rw [hAsks] at hRequest
            cases hRequest
      · exact hRounds

/- Delivering a comment asks for a gloss at most. -/
theorem looksUp_deliver
    (hRounds : 1 ≤ rounds)
    (recipient : Recipient)
    (purpose : Purpose)
    (block? : Option CommentBlock) :
    LooksUp recipient purpose rounds purpose.Shows
      (deliver recipient purpose block?) := by
  unfold deliver
  split
  · exact looksUp_answer (fun _ => Or.inl rfl)
  · exact looksUp_answer (fun hPurpose => by cases hPurpose)
  · exact looksUp_deliverHover hRounds _ _

/- Looking at the document asks for a gloss at most. -/
theorem looksUp_compute
    (hRounds : 1 ≤ rounds)
    (inquiry : Inquiry) :
    LooksUp inquiry.recipient inquiry.purpose rounds
      inquiry.purpose.Shows (compute inquiry) := by
  unfold compute
  refine looksUp_bind quiet_server ?_
  intro s
  dsimp only
  refine looksUp_bind (quiet_update (fun _ => ⟨_, _, rfl⟩)) ?_
  intro _
  split
  · exact looksUp_throw _
  · refine looksUp_bind (quiet_remark _) ?_
    intro _
    exact looksUp_deliver hRounds _ _ _

/- A lookup asks for a selection, or else for a gloss at most. -/
theorem looksUp_lookUp
    (files : Files)
    (recipient : Recipient)
    (purpose : Purpose)
    (params : Json) :
    LooksUp recipient purpose 2 purpose.Shows
      (lookUp files recipient purpose params) := by
  have hTwo : 1 ≤ 2 := by decide
  unfold lookUp
  refine looksUp_bind (quiet_read _) ?_
  intro uri
  refine looksUp_bind quiet_server ?_
  intro s
  split
  · exact looksUp_deliver hTwo _ _ _
  · next document hDocument =>
      refine looksUp_bind (quiet_read _) ?_
      intro position
      refine looksUp_bind (quiet_grammarFor _ _) ?_
      intro grammar?
      cases grammar? with
      | none => exact looksUp_deliver hTwo _ _ _
      | some grammar =>
          let inquiry : Inquiry :=
            { recipient := recipient
              purpose := purpose
              document := document
              position := position
              grammar := grammar }
          apply looksUp_server_bind
          intro turn
          split
          · next hAsks =>
              have hAsked :
                  Turn.Asked recipient purpose turn
                    (selectionRequest document position)
                    (.selection (nextId turn) inquiry) :=
                .selection inquiry hAsks rfl rfl
              exact lookedUp_ask_wait hAsked (Nat.le_refl 2)
          · exact looksUp_compute hTwo inquiry turn

/- Using a result leaves one round fewer to go. -/
theorem looksUp_proceed
    (result? : Option Json)
    (waiting : Waiting) :
    LooksUp waiting.recipient waiting.purpose (waiting.rounds - 1)
      (fun result => waiting.Shows result? result)
      (proceed result? waiting) := by
  cases waiting with
  | selection request inquiry =>
      refine looksUp_bind (quiet_read _) ?_
      intro selection
      split
      · exact looksUp_deliver (Nat.le_refl 1) _ _ _
      · exact looksUp_compute (Nat.le_refl 1) _
  | gloss request recipient block =>
      refine looksUp_bind (quiet_remarks _) ?_
      intro _
      exact looksUp_answer rfl

end Handler

end Marginalia

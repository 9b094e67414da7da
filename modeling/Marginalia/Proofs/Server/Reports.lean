import Marginalia.Proofs.Grammar.Evaluation
import Marginalia.Proofs.Server.Answers
import Marginalia.Proofs.Server.Lookups

/-
  This file proves that the memory of the server is not seen.
  What is sent for a message that asks for the comment at a
  position is what a server without a memory sends: one that was
  told the same before, and was never asked for a comment.

  Key definitions include:
    * `Session.Reported`
    * `Waiting.Serves`
    * `Turn.Faithful`
  The main statements are:
    * `Turn.faithful_of_step`
    * `Session.replies_run`
-/

namespace Marginalia

------------------------------------------------------------
-- Lookups and the Replica
------------------------------------------------------------

/- A message that asks for a lookup has a purpose. -/
theorem Json.isLookup_iff
    {message : Json} :
    message.isLookup = true ↔
      ∃ purpose : Purpose, message.HasMethod purpose.method := by
  unfold isLookup HasMethod
  simp only [Bool.or_eq_true, beq_iff_eq]
  constructor
  · intro hEither
    rcases hEither with hHover | hReport
    · exact ⟨.hover, hHover⟩
    · exact ⟨.report, hReport⟩
  · intro hPurpose
    rcases hPurpose with ⟨purpose, hMethod⟩
    cases purpose with
    | hover => exact Or.inl hMethod
    | report => exact Or.inr hMethod

/- A message that asks for a report has no other purpose. -/
theorem Json.eq_report_of_isReport
    {message : Json}
    {purpose : Purpose}
    (hReport : message.IsReport)
    (hMethod : message.HasMethod purpose.method) :
    purpose = .report := by
  cases purpose with
  | report => rfl
  | hover =>
      have hSame := Option.some.inj (hMethod.symm.trans hReport)
      exact absurd hSame (by decide)

namespace Replica

/- A lookup teaches nothing. -/
theorem take_of_isLookup
    {message : Json}
    (hLookUp : message.isLookup = true)
    (replica : Replica) :
    replica.take message = replica := by
  rcases Json.isLookup_iff.mp hLookUp with ⟨purpose, hMethod⟩
  unfold take
  rw [hMethod]
  cases purpose <;> rfl

/- Nothing changes the grammars that a session starts with. -/
theorem defaults_take
    (replica : Replica)
    (message : Json) :
    (replica.take message).defaults = replica.defaults := by
  unfold take dispatch setUp opened changed closed configure
  repeat' split
  all_goals rfl

/- So they are the ones of the start. -/
theorem defaults_after
    (engine : BoundedEngine)
    (descriptors : List Descriptor)
    (exchanges : List Exchange) :
    (after engine descriptors exchanges).defaults = descriptors := by
  induction exchanges with
  | nil => rfl
  | cons exchange earlier ih =>
      exact (defaults_take _ exchange.message).trans ih

/- Nothing changes the engine. -/
theorem engine_take
    (replica : Replica)
    (message : Json) :
    (replica.take message).registry.engine =
      replica.registry.engine := by
  unfold take dispatch setUp opened changed closed configure
  repeat' split
  all_goals rfl

/- So it is the one of the start. -/
theorem engine_after
    (engine : BoundedEngine)
    (descriptors : List Descriptor)
    (exchanges : List Exchange) :
    (after engine descriptors exchanges).registry.engine = engine := by
  induction exchanges with
  | nil => rfl
  | cons exchange earlier ih =>
      exact (engine_take _ exchange.message).trans ih

/- What is known does not depend on the lookups before. -/
theorem after_filter
    (engine : BoundedEngine)
    (descriptors : List Descriptor)
    (exchanges : List Exchange) :
    after engine descriptors
        (exchanges.filter (fun e => !e.message.isLookup)) =
      after engine descriptors exchanges := by
  induction exchanges with
  | nil => rfl
  | cons exchange earlier ih =>
      have hAfter :
          after engine descriptors (exchange :: earlier) =
            (after engine descriptors earlier).take exchange.message := rfl
      rw [List.filter_cons, hAfter, ← ih]
      by_cases hLookUp : exchange.message.isLookup = true
      · rw [take_of_isLookup hLookUp]
        simp [hLookUp]
      · simp [hLookUp, after]

end Replica

------------------------------------------------------------
-- What Holds Between Steps
------------------------------------------------------------

/- What was sent for an exchange that asked for a report. -/
def Exchange.IsReported
    (engine : BoundedEngine)
    (files : Files)
    (descriptors : List Descriptor)
    (earlier : List Exchange)
    (x : Exchange) : Prop :=
  x.message.IsReport →
    x.replies =
      (Replica.after engine descriptors earlier).report files x.message
        x.answers

/-
  All reports of some exchanges are those of a server without a
  memory that was told what came before.
-/
def Session.Reported
    (engine : BoundedEngine)
    (files : Files)
    (descriptors : List Descriptor)
    (exchanges : List Exchange) : Prop :=
  ∀ x earlier,
    x :: earlier <:+ exchanges →
      x.IsReported engine files descriptors earlier

/- One more exchange. -/
theorem Session.reported_cons
    {engine : BoundedEngine}
    {files : Files}
    {descriptors : List Descriptor}
    {x : Exchange}
    {earlier : List Exchange}
    (hFirst : x.IsReported engine files descriptors earlier)
    (hEarlier : Reported engine files descriptors earlier) :
    Reported engine files descriptors (x :: earlier) := by
  intro y before hSuffix
  rcases List.suffix_cons_iff.mp hSuffix with hSame | hRest
  · have hBoth := List.cons.inj hSame
    rw [hBoth.1, hBoth.2]
    exact hFirst
  · exact hEarlier y before hRest

/-
  What is waited for serves the exchange.  A gloss is for a
  hover.  A selection is for a lookup of the exchange, of which
  nothing came yet.
-/
def Waiting.Serves
    (files : Files)
    (replica : Replica)
    (server : Server)
    (x : Exchange) : Waiting → Prop
| .gloss _ _ _ => x.message.HasMethod Purpose.hover.method
| .selection _ inquiry =>
    inquiry.Serves files replica server x.message ∧
      x.message.HasMethod inquiry.purpose.method ∧
        x.answers = [] ∧ x.replies = []

namespace Turn

/-
  The server knows what a server without a memory knows.  The
  reports so far are right, but for that of an exchange which is
  still waited for; what is waited for serves it.
-/
structure Faithful
    (engine : BoundedEngine)
    (files : Files)
    (descriptors : List Descriptor)
    (horizon : Horizon)
    (turn : Turn) : Prop where
  agrees :
    Server.Agrees files horizon
      (Replica.after engine descriptors (Session.exchanges turn.events))
      turn.server
  reported :
    turn.server.waiting = none →
      Session.Reported engine files descriptors
        (Session.exchanges turn.events)
  serves :
    ∀ waiting ∈ turn.server.waiting,
      ∃ x earlier,
        Session.exchanges turn.events = x :: earlier ∧
          Session.Reported engine files descriptors earlier ∧
            waiting.Serves files
              (Replica.after engine descriptors (x :: earlier))
              turn.server x

variable {engine : BoundedEngine}
variable {files : Files}
variable {descriptors : List Descriptor}
variable {horizon : Horizon}
variable {turn next : Turn}
variable {x : Exchange}
variable {earlier : List Exchange}

/-
  Delivering the lookup of the latest exchange makes its report
  right.
-/
theorem faithful_of_delivered
    {purpose : Purpose}
    (hExchanges :
      Session.exchanges turn.events = x :: earlier)
    (hEarlier : Session.Reported engine files descriptors earlier)
    (hMethod : x.message.HasMethod purpose.method)
    (hReplies : purpose = .report → x.replies = [])
    (hDelivered :
      Delivered files horizon
        (Replica.after engine descriptors (x :: earlier)) purpose
        ((Replica.after engine descriptors (x :: earlier)).report files
          x.message x.answers) turn next) :
    Faithful engine files descriptors horizon next := by
  rcases hDelivered.replies with ⟨frames, hFrames, hResult⟩
  rcases exchanges_of_replies hFrames hExchanges with
    ⟨sent, hSent, hAdded⟩
  have hLookUp : x.message.isLookup = true :=
    Json.isLookup_iff.mpr ⟨purpose, hMethod⟩
  have hSame :
      Replica.after engine descriptors (x :: earlier) =
        Replica.after engine descriptors earlier :=
    Replica.take_of_isLookup hLookUp _
  constructor
  · rw [hSent]
    exact hDelivered.agrees
  · intro _
    rw [hSent]
    apply Session.reported_cons _ hEarlier
    intro hReport
    have hPurpose := Json.eq_report_of_isReport hReport hMethod
    rw [hAdded, hReplies hPurpose, hResult hPurpose, hSame,
      List.append_nil]
  · intro waiting hWaiting
    rcases hDelivered.waiting waiting hWaiting with
      ⟨hHover, request, recipient, block, hGloss⟩
    refine ⟨_, earlier, hSent, hEarlier, ?_⟩
    rw [hGloss]
    rw [hHover] at hMethod
    exact hMethod

/- A lookup that waits for a selection serves the latest exchange. -/
theorem faithful_of_pending
    {purpose : Purpose}
    (hExchanges :
      Session.exchanges turn.events = x :: earlier)
    (hEarlier : Session.Reported engine files descriptors earlier)
    (hMethod : x.message.HasMethod purpose.method)
    (hAnswers : x.answers = [])
    (hReplies : x.replies = [])
    (hPending :
      Pending files horizon
        (Replica.after engine descriptors (x :: earlier)) purpose
        x.message turn next) :
    Faithful engine files descriptors horizon next := by
  rcases exchanges_of_replies hPending.replies hExchanges with
    ⟨sent, hSent, hAdded⟩
  rcases hPending.waiting with
    ⟨request, inquiry, hWaiting, hPurpose, hServes⟩
  constructor
  · rw [hSent]
    exact hPending.agrees
  · intro hNone
    rw [hWaiting] at hNone
    cases hNone
  · intro waiting hMember
    have hSame : Waiting.selection request inquiry = waiting := by
      rw [hWaiting] at hMember
      exact Option.some.inj hMember
    refine ⟨_, earlier, hSent, hEarlier, ?_⟩
    rw [← hSame]
    refine ⟨hServes, ?_, hAnswers, ?_⟩
    · rw [hPurpose]
      exact hMethod
    · rw [hAdded, hReplies]
      rfl

------------------------------------------------------------
-- Taking Up a Message
------------------------------------------------------------

variable {incoming : List Incoming}
variable {message : Json}

/- A lookup is taken up. -/
theorem faithful_of_lookUp
    {purpose : Purpose}
    (hFaithful : Faithful engine files descriptors horizon turn)
    (hWaiting : turn.server.waiting = none)
    (hKeys : horizon.TellsApart)
    (hLoads : horizon.Loads engine files)
    (hPrintable : message.isPrintable = true)
    (hMethod : message.HasMethod purpose.method) :
    Faithful engine files descriptors horizon
      ((turn.note (.handled message)).attempt
        (Recipient.ofMessage message)
        (Handler.handle files message)) := by
  let x : Exchange := { message := message, answers := [], sent := [] }
  let earlier := Session.exchanges turn.events
  have hEarlier := hFaithful.reported hWaiting
  have hExchanges :
      Session.exchanges (turn.note (.handled message)).events =
        x :: earlier := rfl
  have hSame :
      Replica.after engine descriptors (x :: earlier) =
        Replica.after engine descriptors earlier :=
    Replica.take_of_isLookup
      (Json.isLookup_iff.mpr ⟨purpose, hMethod⟩) _
  have hAgrees :
      Server.Agrees files horizon
        (Replica.after engine descriptors (x :: earlier))
        (turn.note (.handled message)).server := by
    rw [hSame]
    exact hFaithful.agrees
  have hEngine :
      (Replica.after engine descriptors
        (x :: earlier)).registry.engine = engine :=
    Replica.engine_after engine descriptors (x :: earlier)
  rw [← hEngine] at hLoads
  rw [Handler.handle_of_lookUp hMethod]
  rcases
      delivered_or_pending_lookUp hAgrees hWaiting hKeys hLoads
        hPrintable purpose with
    hDelivered | hPending
  · exact
      faithful_of_delivered hExchanges hEarlier hMethod
        (fun _ => rfl) hDelivered
  · exact
      faithful_of_pending hExchanges hEarlier hMethod rfl rfl hPending

/- Any other message is taken up. -/
theorem faithful_of_other
    (hFaithful : Faithful engine files descriptors horizon turn)
    (hWaiting : turn.server.waiting = none)
    (hWellFormed : message.WellFormed)
    (hLookUp : message.isLookup = false)
    (hNamed :
      message.HasMethod "initialize" →
        ∀ d ∈
          ((Replica.after engine descriptors
            (Session.exchanges turn.events)).setUp
              message.params).registry.descriptors,
          horizon.names d)
    (hOpens :
      message.HasMethod "textDocument/didOpen" →
        ∀ document,
          Document.ofOpened message.params = .ok document →
            horizon.opens document) :
    Faithful engine files descriptors horizon
      ((turn.note (.handled message)).attempt
        (Recipient.ofMessage message)
        (Handler.handle files message)) := by
  let start := turn.note (.handled message)
  have hEarlier := hFaithful.reported hWaiting
  have hMethod :
      ∀ purpose : Purpose, ¬message.HasMethod purpose.method := by
    intro purpose hHas
    have hIs := Json.isLookup_iff.mpr ⟨purpose, hHas⟩
    rw [hLookUp] at hIs
    cases hIs
  have hStart :
      Server.Agrees files horizon
        (Replica.after engine descriptors (Session.exchanges turn.events))
        start.server := hFaithful.agrees
  rcases
      Handler.agrees_handle hStart hWellFormed hMethod hNamed hOpens with
    ⟨hAgrees, hSame⟩
  have hTookUp := tookUp_attempt hWaiting files message
  rcases replies_of_outputs hTookUp.outputs with ⟨frames, hReplies⟩
  rcases exchanges_of_replies hReplies rfl with ⟨sent, hSent, _⟩
  have hServer :=
    server_attempt start (Recipient.ofMessage message)
      (Handler.handle files message)
  have hFree :
      (start.attempt (Recipient.ofMessage message)
        (Handler.handle files message)).server.waiting = none := by
    rw [hServer, hSame]
    exact hWaiting
  constructor
  · rw [hSent, hServer]
    exact hAgrees
  · intro _
    rw [hSent]
    apply Session.reported_cons _ hEarlier
    intro hReport
    exact absurd hReport (hMethod .report)
  · rw [hFree]
    intro waiting hMember
    cases hMember

/- A message of a well-formed session is taken up. -/
theorem faithful_of_takeUp
    (hFaithful :
      Faithful engine files descriptors
        (Session.horizon descriptors incoming) turn)
    (hWaiting : turn.server.waiting = none)
    (hWellFormed : Session.WellFormed engine files descriptors incoming)
    (hArrived : .message message ∈ incoming)
    (hPrintable : message.isPrintable = true) :
    Faithful engine files descriptors (Session.horizon descriptors incoming)
      ((turn.note (.handled message)).attempt
        (Recipient.ofMessage message)
        (Handler.handle files message)) := by
  have hMessage := hWellFormed.messages message hArrived
  by_cases hLookUp : message.isLookup = true
  · rcases Json.isLookup_iff.mp hLookUp with ⟨purpose, hMethod⟩
    exact
      faithful_of_lookUp hFaithful hWaiting hWellFormed.keys
        hWellFormed.loads hPrintable hMethod
  · apply
      faithful_of_other hFaithful hWaiting hMessage
        (by simpa using hLookUp)
    · intro hMethod d hNamed
      have hDefaults :=
        Replica.defaults_after engine descriptors
          (Session.exchanges turn.events)
      right
      refine ⟨message, hArrived, hMethod, ?_⟩
      rw [← hDefaults]
      exact hNamed
    · intro hMethod document hDocument
      exact ⟨message, hArrived, hMethod, hDocument⟩

------------------------------------------------------------
-- Going On
------------------------------------------------------------

/-
  What was waited for is used.  The answers are those that the
  exchange has by then.
-/
theorem faithful_of_resume
    {waiting : Waiting}
    {result? : Option Json}
    {answers : List Json}
    (hExchanges :
      Session.exchanges turn.events =
        { x with answers := answers } :: earlier)
    (hEarlier : Session.Reported engine files descriptors earlier)
    (hAgrees :
      Server.Agrees files horizon
        (Replica.after engine descriptors (x :: earlier)) turn.server)
    (hServes :
      waiting.Serves files (Replica.after engine descriptors (x :: earlier))
        turn.server x)
    (hKeys : horizon.TellsApart)
    (hSelection :
      x.answers = [] →
        Selection.ofResult? result? =
          Replica.selectionIn answers) :
    Faithful engine files descriptors horizon
      (turn.attempt waiting.recipient
        (Handler.resume waiting result?)) := by
  cases waiting with
  | selection request inquiry =>
      rcases hServes with ⟨hInquiry, hMethod, hAnswers, hReplies⟩
      apply
        faithful_of_delivered hExchanges hEarlier hMethod
          (fun _ => hReplies)
      exact
        delivered_resume_selection hAgrees hKeys hInquiry
          (hSelection hAnswers) request
  | gloss request recipient block =>
      have hNotReport : Purpose.hover ≠ .report := by decide
      apply
        faithful_of_delivered hExchanges hEarlier hServes
          (fun hPurpose => absurd hPurpose hNotReport)
      exact
        delivered_resume_gloss hAgrees request recipient block result?

/- An answer is taken. -/
theorem faithful_of_answer
    {waiting : Waiting}
    (hFaithful : Faithful engine files descriptors horizon turn)
    (hWaiting : turn.server.waiting = some waiting)
    (hKeys : horizon.TellsApart)
    (message : Json) :
    Faithful engine files descriptors horizon
      (((turn.note (.answered message)).noteFailure waiting
        message).attempt waiting.recipient
          (Handler.resume waiting (resultOf? message))) := by
  have hServer :=
    server_noteFailure (turn.note (.answered message)) waiting message
  rcases hFaithful.serves waiting hWaiting with
    ⟨x, earlier, hExchanges, hEarlier, hServes⟩
  have hAgrees := hFaithful.agrees
  rw [hExchanges] at hAgrees
  apply
    faithful_of_resume
      (exchanges_answer hExchanges waiting message) hEarlier
  · rw [hServer]
    exact hAgrees
  · rw [hServer]
    exact hServes
  · exact hKeys
  · intro _
    rfl

/- The server goes on without an answer. -/
theorem faithful_of_giveUp
    {waiting : Waiting}
    (hFaithful : Faithful engine files descriptors horizon turn)
    (hWaiting : turn.server.waiting = some waiting)
    (hKeys : horizon.TellsApart) :
    Faithful engine files descriptors horizon
      (turn.attempt waiting.recipient
        (Handler.resume waiting none)) := by
  rcases hFaithful.serves waiting hWaiting with
    ⟨x, earlier, hExchanges, hEarlier, hServes⟩
  have hAgrees := hFaithful.agrees
  rw [hExchanges] at hAgrees
  have hAnswers :
      Session.exchanges turn.events =
        { x with answers := x.answers } :: earlier := hExchanges
  apply faithful_of_resume hAnswers hEarlier hAgrees hServes hKeys
  intro hNone
  rw [hNone]
  rfl

------------------------------------------------------------
-- Steps
------------------------------------------------------------

/- The server may change what is no knowledge. -/
theorem faithful_of_update
    {f : Server → Server}
    (hFaithful : Faithful engine files descriptors horizon turn)
    (hDocuments :
      (f turn.server).documents = turn.server.documents)
    (hDefaults : (f turn.server).defaults = turn.server.defaults)
    (hService : (f turn.server).service = turn.server.service)
    (hWaiting : (f turn.server).waiting = turn.server.waiting) :
    Faithful engine files descriptors horizon (turn.update f) := by
  constructor
  · exact
      Server.agrees_of_eq hFaithful.agrees hDocuments hDefaults hService
  · intro hNone
    exact hFaithful.reported (hWaiting.symm.trans hNone)
  · intro waiting hMember
    have hBefore : turn.server.waiting = some waiting :=
      hWaiting.symm.trans hMember
    rcases hFaithful.serves waiting hBefore with
      ⟨x, earlier, hExchanges, hEarlier, hServes⟩
    refine ⟨x, earlier, hExchanges, hEarlier, ?_⟩
    cases waiting with
    | gloss request recipient block => exact hServes
    | selection request inquiry =>
        rcases hServes with ⟨hInquiry, hRest⟩
        refine ⟨?_, hRest⟩
        refine { hInquiry with holds := ?_ }
        have hHolds := hInquiry.holds
        rw [← hService] at hHolds
        exact hHolds

/- A remark changes nothing. -/
theorem faithful_of_remark
    (hFaithful : Faithful engine files descriptors horizon turn)
    (r : Diagnostic) :
    Faithful engine files descriptors horizon
      (turn.note (.remarked r)) := by
  have hSame :
      Session.exchanges (turn.note (.remarked r)).events =
        Session.exchanges turn.events :=
    Session.exchanges_remarked turn.events r
  constructor
  · rw [hSame]
    exact hFaithful.agrees
  · rw [hSame]
    exact hFaithful.reported
  · rw [hSame]
    exact hFaithful.serves

/- Every step of a well-formed session keeps the server faithful. -/
theorem faithful_of_step
    (hFaithful :
      Faithful engine files descriptors
        (Session.horizon descriptors incoming) turn)
    (hWellFormed : Session.WellFormed engine files descriptors incoming)
    (hPrintable :
      ∀ message,
        .message message ∈ incoming → message.isPrintable = true)
    (hStep : Step files (fun item => item ∈ incoming) turn next) :
    Faithful engine files descriptors (Session.horizon descriptors incoming)
      next := by
  cases hStep with
  | takeUp hArrived hWaiting hGoesOn =>
      exact
        faithful_of_takeUp hFaithful hWaiting hWellFormed hArrived
          (hPrintable _ hArrived)
  | answer hArrived hWaiting hAnswered =>
      exact
        faithful_of_answer hFaithful hWaiting hWellFormed.keys _
  | giveUp hWaiting hClosed =>
      exact faithful_of_giveUp hFaithful hWaiting hWellFormed.keys
  | interrupt hArrived hWaiting =>
      exact absurd rfl (hWellFormed.held _ hArrived _)
  | enqueue hArrived =>
      exact faithful_of_update hFaithful rfl rfl rfl rfl
  | close => exact faithful_of_update hFaithful rfl rfl rfl rfl
  | crash hArrived hWaiting =>
      exact absurd rfl (hWellFormed.held _ hArrived _)
  | remark r => exact faithful_of_remark hFaithful r

/- So do all steps. -/
theorem faithful_of_steps
    (hFaithful :
      Faithful engine files descriptors
        (Session.horizon descriptors incoming) turn)
    (hWellFormed : Session.WellFormed engine files descriptors incoming)
    (hPrintable :
      ∀ message,
        .message message ∈ incoming → message.isPrintable = true)
    (hSteps : Steps files (fun item => item ∈ incoming) turn next) :
    Faithful engine files descriptors (Session.horizon descriptors incoming)
      next := by
  induction hSteps with
  | refl => exact hFaithful
  | tail _ hStep ih =>
      exact faithful_of_step ih hWellFormed hPrintable hStep

/- A session begins faithful. -/
theorem faithful_create
    (engine : BoundedEngine)
    (files : Files)
    (descriptors : List Descriptor)
    (incoming : List Incoming) :
    Faithful engine files descriptors (Session.horizon descriptors incoming)
      ⟨Server.create engine descriptors, []⟩ := by
  constructor
  · apply Server.agrees_create
    intro d hMember
    exact Or.inl hMember
  · intro _ x earlier hSuffix
    have hNil := List.eq_nil_of_suffix_nil hSuffix
    cases hNil
  · intro waiting hMember
    cases hMember

end Turn

------------------------------------------------------------
-- Sessions
------------------------------------------------------------

/-
  In every well-formed session, what is sent for a message that
  asks for the comment at a position is what a server without a
  memory sends that was told the same before.  It was told of
  no lookup, so that it does not matter what was asked before.
-/
theorem Session.replies_run
    {engine : BoundedEngine}
    {files : Files}
    {descriptors : List Descriptor}
    {input : Bytes}
    (hWellFormed :
      WellFormed engine files descriptors (Incoming.ofStream input))
    {x : Exchange}
    {earlier : List Exchange}
    (hExchange :
      x :: earlier <:+
        exchanges
          (run files (Server.create engine descriptors)
            (Incoming.ofStream input)).events)
    (hReport : x.message.IsReport) :
    x.replies =
      (Replica.after engine descriptors
        (earlier.filter (fun e => !e.message.isLookup))).report files
          x.message x.answers := by
  let incoming := Incoming.ofStream input
  let arrived : Incoming → Prop := fun item => item ∈ incoming
  have hSound := Turn.sound_create arrived engine descriptors
  have hSteps :
      Turn.Steps files arrived ⟨Server.create engine descriptors, []⟩
        (run files (Server.create engine descriptors) incoming) :=
    steps_run hSound (fun _ hItem => hItem)
  have hFaithful :=
    Turn.faithful_of_steps
      (Turn.faithful_create engine files descriptors incoming) hWellFormed
      (fun _ hMessage =>
        Incoming.isPrintable_of_mem_ofStream input hMessage)
      hSteps
  have hWaiting :=
    waiting_run hSound (fun _ hItem => hItem) files
  rw [Replica.after_filter]
  exact hFaithful.reported hWaiting x earlier hExchange hReport

------------------------------------------------------------
-- A Session with a Change
------------------------------------------------------------

namespace Session.Changing

/- A document of one line. -/
def first : Document :=
  { uri := utf8 "u"
    languageId := utf8 "t"
    version := 1
    text := utf8 "! one" }

/- The document with another line.  Its version is the same. -/
def second : Document :=
  { first with text := utf8 "! two" }

/- The first document is opened. -/
def opened : Json :=
  Json.record
    [ ("method", Json.ofString "textDocument/didOpen"),
      ("params",
        Json.record
          [ ("textDocument",
              Json.record
                [ ("uri", .text first.uri),
                  ("languageId", .text first.languageId),
                  ("version", .int first.version),
                  ("text", .text first.text) ]) ]) ]

/- The comment at its start is asked for. -/
def asked (id : Int) : Json :=
  Json.record
    [ ("id", .int id),
      ("method", Json.ofString Purpose.report.method),
      ("params",
        Json.record
          [ ("textDocument", Json.record [("uri", .text first.uri)]),
            ("position",
              Json.record
                [("line", .int 0), ("character", .int 0)]) ]) ]

/-
  It becomes the second document, and then come the other edits
  of the change.
-/
def changed (others : List Json) : Json :=
  Json.record
    [ ("method", Json.ofString "textDocument/didChange"),
      ("params",
        Json.record
          [ ("textDocument",
              Json.record
                [ ("uri", .text first.uri),
                  ("version", .int second.version) ]),
            ("contentChanges",
              .array
                (Json.record [("text", .text second.text)] ::
                  others)) ]) ]

/- The descriptors of the session. -/
def descriptors : List Descriptor :=
  [⟨[first.languageId], [], utf8 "t.json"⟩]

/- The grammar: all from an exclamation mark on is a comment. -/
def table : Json :=
  Json.record
    [ ("scopeName", Json.ofString "source.t"),
      ("patterns",
        .array
          [ Json.record
              [ ("match", Json.ofString "!.*"),
                ("name", Json.ofString "comment.line.t") ] ]) ]

/- What its file holds, like all others. -/
def files : Files :=
  fun _ => some table.compact

/- The same grammar, found within a bound. -/
def evaluated : Grammar :=
  (Grammar.ofJsonWithin? .standard 8 table).getD default

/- The comment that a document is. -/
def block (document : Document) : CommentBlock :=
  { range := ⟨⟨0, 0⟩, ⟨0, 5⟩⟩
    comment := document.text
    isLineComment := true
    humanize := false
    scope := utf8 "comment.line.t" }

/- The report of a document as a comment. -/
def report (id : Int) (document : Document) : Json :=
  Handler.resultFrame (Recipient.ofMessage (asked id))
    (block document).toJson

/- The grammar is read. -/
theorem ofJson_table :
    Grammar.ofJson .standard table = (.ok (some evaluated), []) := by
  have hSome :
      (Grammar.ofJsonWithin? .standard 8 table).isSome = true := by
    decide +kernel
  have hWithin :
      Grammar.ofJsonWithin? .standard 8 table = some evaluated := by
    rcases Option.isSome_iff_exists.mp hSome with ⟨found, hFound⟩
    rw [evaluated, hFound]
    rfl
  exact Grammar.ofJson_of_ofJsonWithin? hWithin

/- Each of the documents is a comment. -/
theorem answer_block :
    ∀ document ∈ [first, second],
      let fresh :=
        TokenizedDocument.create evaluated document defaultMaxLength
      (TokenizedDocument.answer
        (CommentLookup.compute fresh.lines Settings.default.merge
          ⟨0, 0⟩) fresh).1 =
        .found (block document) := by
  have hAll :
      ∀ document ∈ [first, second],
        let fresh :=
          TokenizedDocument.create evaluated document
            defaultMaxLength
        (fresh.extendWithin? 20 fresh.lines.size).map (fun d =>
            (CommentLookup.compute fresh.lines Settings.default.merge
              ⟨0, 0⟩).eval d.tokensIn) =
          some (.found (block document)) := by
    decide +kernel
  intro document hDocument fresh
  rcases
      Option.map_eq_some_iff.mp (hAll document hDocument) with
    ⟨last, hExtend, hEval⟩
  rw [← hEval]
  exact
    TokenizedDocument.answer_of_extendWithin?
      (TokenizedDocument.fresh_create _ _ _) hExtend _ 0

/- A server without a memory reports the document that is open. -/
theorem report_asked
    {replica : Replica}
    {document : Document}
    (hDocument : document ∈ [first, second])
    (hOpen : replica.documents first.uri = some document)
    (hHeld :
      replica.registry.held files document.languageId =
        some evaluated)
    (hSettings : replica.settings = Settings.default)
    (hMaxLength : replica.maxLength = defaultMaxLength)
    {id : Int}
    (hPrintable : (report id document).isPrintable = true) :
    replica.report files (asked id) [] = [report id document] := by
  have hLookUp :
      replica.lookUp document evaluated ⟨0, 0⟩ =
        .found (block document) := by
    rw [Replica.lookUp, hSettings, hMaxLength]
    exact answer_block document hDocument
  have hUri :
      (asked id).params.documentUri = .ok first.uri := rfl
  have hPosition :
      (asked id).params.documentPosition = .ok ⟨0, 0⟩ := rfl
  have hComment :
      replica.comment? files (asked id).params [] =
        .ok (some (block document)) := by
    rw [Replica.comment?, hUri]
    simp only [bind, Except.bind, hOpen, hPosition, hHeld,
      Replica.selectionIn]
    rw [hLookUp]
    rfl
  rw [Replica.report, hComment]
  exact if_pos hPrintable

/-
  The messages of a session in which the document is changed
  between two lookups, and keeps its version.
-/
def conversation : List Json :=
  [opened, asked 1, changed [], asked 2]

/- The session on the wire. -/
def input : Bytes :=
  (conversation.map Json.compact).flatMap Frame.encode

set_option maxRecDepth 1024 in
/- The messages arrive. -/
theorem ofStream_input :
    Incoming.ofStream input = conversation.map Incoming.message := by
  have hBodies :
      ∀ body ∈ conversation.map Json.compact,
        body ≠ [] ∧ body.length ≤ Frame.maxLength := by
    decide +kernel
  have hParse :
      ∀ message ∈ conversation,
        Json.parse message.compact = .ok message := by
    intro message hMember
    simp only [conversation, List.mem_cons, List.not_mem_nil,
      or_false] at hMember
    rcases hMember with hSame | hSame | hSame | hSame <;> rw [hSame]
    · rfl
    · rfl
    · rfl
    · rfl
  rw [input, Incoming.ofStream_encoded hBodies, List.map_map]
  apply List.map_congr_left
  intro message hMember
  rw [Function.comp_apply, Incoming.ofBody, hParse message hMember]

/- Only the first document is opened. -/
theorem eq_first_of_mem
    {message : Json}
    {document : Document}
    (hMember : message ∈ conversation)
    (hMethod : message.HasMethod "textDocument/didOpen")
    (hDocument : Document.ofOpened message.params = .ok document) :
    document = first := by
  simp only [conversation, List.mem_cons, List.not_mem_nil, or_false]
    at hMember
  rcases hMember with hSame | hSame | hSame | hSame
  · rw [hSame] at hDocument
    have hFirst : Document.ofOpened opened.params = .ok first := rfl
    exact Except.ok.inj (hDocument.symm.trans hFirst)
  all_goals
    rw [hSame] at hMethod
    exact absurd hMethod (by unfold Json.HasMethod; decide)

/- All changes can be read. -/
theorem wellFormed_of_mem
    {message : Json}
    (hMember : message ∈ conversation) :
    message.WellFormed := by
  intro hMethod changes hChanges
  simp only [conversation, List.mem_cons, List.not_mem_nil, or_false]
    at hMember
  rcases hMember with hSame | hSame | hSame | hSame
  · rw [hSame] at hMethod
    exact absurd hMethod (by unfold Json.HasMethod; decide)
  · rw [hSame] at hMethod
    exact absurd hMethod (by unfold Json.HasMethod; decide)
  · rw [hSame] at hChanges
    cases hChanges
    exact ⟨_, rfl⟩
  · rw [hSame] at hMethod
    exact absurd hMethod (by unfold Json.HasMethod; decide)

/- The file of each descriptor holds the grammar. -/
theorem loadFile_path
    (path : Bytes) :
    Registry.loadFile .standard files path =
      (.ok (some evaluated), []) := by
  have hLoad :
      Registry.loadFile .standard files path =
        Grammar.ofJson .standard table := rfl
  rw [hLoad, ofJson_table]

/- So the grammar is found for the language of the document. -/
theorem held_create :
    (Registry.create .standard descriptors
        Registry.defaultExcluded).held files first.languageId =
      some evaluated := by
  have hDescriptor :
      (Registry.create .standard descriptors
          Registry.defaultExcluded).descriptor? first.languageId =
        some ⟨[first.languageId], [], utf8 "t.json"⟩ := rfl
  have hEngine :
      (Registry.create .standard descriptors
        Registry.defaultExcluded).engine = .standard := rfl
  rw [Registry.held, hDescriptor]
  dsimp only
  rw [hEngine, loadFile_path]

/- The session is well-formed. -/
theorem wellFormed_input :
    WellFormed .standard files descriptors
      (Incoming.ofStream input) := by
  have hMessage :
      ∀ {message : Json},
        .message message ∈ Incoming.ofStream input →
          message ∈ conversation := by
    intro message hMember
    simpa [ofStream_input] using hMember
  constructor
  · intro item hItem fault hUnreadable
    rw [ofStream_input, hUnreadable] at hItem
    rcases List.mem_map.mp hItem with ⟨message, _, hSame⟩
    cases hSame
  · intro message hMember
    exact wellFormed_of_mem (hMessage hMember)
  · intro a b hA hB _
    rcases hA with ⟨x, hX, hXMethod, hXDocument⟩
    rcases hB with ⟨y, hY, hYMethod, hYDocument⟩
    rw [eq_first_of_mem (hMessage hX) hXMethod hXDocument,
      eq_first_of_mem (hMessage hY) hYMethod hYDocument]
    exact ⟨rfl, rfl⟩
  · intro d _
    exact ⟨some evaluated, by rw [loadFile_path]⟩

/-
  Each lookup is told what the document held when it was asked,
  although the version is the same.
-/
theorem replies_run_input :
    ∃ x change y opening,
      exchanges
          (run files (Server.create .standard descriptors)
            (Incoming.ofStream input)).events =
        [x, change, y, opening] ∧
        (x.message = asked 2 ∧ x.replies = [report 2 second]) ∧
          y.message = asked 1 ∧ y.replies = [report 1 first] := by
  have hMethods :
      conversation.all (fun message =>
        (message.get? "method").isSome) = true := by
    decide
  have hRun :=
    exchanges_run_of_methods (List.all_eq_true.mp hMethods)
      (by decide) .standard files descriptors
  rw [← ofStream_input] at hRun
  rcases hRun with ⟨hMessages, hAnswers⟩
  rcases List.map_eq_cons_iff.mp hMessages with
    ⟨x, later, hExchanges, hX, hLater⟩
  rcases List.map_eq_cons_iff.mp hLater with
    ⟨change, between, hChange, hChanged, hBetween⟩
  rcases List.map_eq_cons_iff.mp hBetween with
    ⟨y, rest, hY, hAsked, hRest⟩
  rcases List.map_eq_singleton_iff.mp hRest with
    ⟨opening, hOpening, hOpened⟩
  subst hOpening hY hChange
  let start : Replica := Replica.start .standard descriptors
  have hOnce : Replica.after .standard descriptors [opening] =
      start.take opened := by
    rw [← hOpened]
    rfl
  have hTwice :
      Replica.after .standard descriptors [change, y, opening] =
        ((start.take opened).take (asked 1)).take (changed []) := by
    rw [← hOpened, ← hAsked, ← hChanged]
    rfl
  refine ⟨x, change, y, opening, hExchanges, ⟨hX, ?_⟩, hAsked, ?_⟩
  · have hSuffix :
        x :: [change, y, opening] <:+
          exchanges
            (run files (Server.create .standard descriptors)
              (Incoming.ofStream input)).events :=
      ⟨[], hExchanges.symm⟩
    have hReplies :=
      replies_run wellFormed_input hSuffix (by rw [hX]; rfl)
    rw [Replica.after_filter, hTwice, hX,
      hAnswers x (by simp [hExchanges])] at hReplies
    rw [hReplies]
    exact report_asked (by simp) rfl held_create rfl rfl (by decide)
  · have hSuffix :
        y :: [opening] <:+
          exchanges
            (run files (Server.create .standard descriptors)
              (Incoming.ofStream input)).events :=
      ⟨[x, change], hExchanges.symm⟩
    have hReplies :=
      replies_run wellFormed_input hSuffix (by rw [hAsked]; rfl)
    rw [Replica.after_filter, hOnce, hAsked,
      hAnswers y (by simp [hExchanges])] at hReplies
    rw [hReplies]
    exact report_asked (by simp) rfl held_create rfl rfl (by decide)

end Session.Changing

end Marginalia

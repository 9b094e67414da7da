import Marginalia.Proofs.Server.Freshness
import Marginalia.Proofs.Server.Reports
import Marginalia.Proofs.Server.Waits

/-
  This file says when a lookup finds what a document no longer
  holds.

  In all states of a session, lookups in the document at a place
  are answered from the lines that are stored for it, unless a
  change of it misled the server on the way.  After such a change
  they may be answered from the lines before it.

  Key definitions include:
    * `Server.Ready`
    * `Session.Misleads`, `Session.Misled`
    * `Server.LooksUpStored`
  The main statements are:
    * `Handler.ready_lookUp`
    * `Session.ready_of_step`
    * `Session.looksUpStored_or_misled`
    * `Server.compute_of_halfMade`
-/

namespace Marginalia

------------------------------------------------------------
-- Waiting for Selections
------------------------------------------------------------

/-
  The server is up to date about the document at a place, and if
  it waits for a selection, the document that this is for is open
  and its grammar is remembered.
-/
structure Server.Ready
    (horizon : Horizon)
    (uri : Bytes)
    (server : Server) : Prop where
  upToDate : server.UpToDate horizon uri
  inquires :
    ∀ {request : Bytes} {inquiry : Inquiry},
      server.waiting = some (.selection request inquiry) →
        server.document? inquiry.document.uri =
            some inquiry.document ∧
          server.service.registry.Holds inquiry.grammar

namespace Server

variable {horizon : Horizon}
variable {uri : Bytes}
variable {server next : Server}

/- A server that waits for no selection is ready. -/
theorem ready_of_rounds_le_one
    (hUpToDate : server.UpToDate horizon uri)
    (hRounds : server.rounds ≤ 1) :
    server.Ready horizon uri := by
  refine ⟨hUpToDate, ?_⟩
  intro request inquiry hWaiting
  rw [rounds_of_waiting hWaiting] at hRounds
  simp [Waiting.rounds] at hRounds

/- So is one that waits for nothing. -/
theorem ready_of_waiting_eq_none
    (hUpToDate : server.UpToDate horizon uri)
    (hWaiting : server.waiting = none) :
    server.Ready horizon uri := by
  apply ready_of_rounds_le_one hUpToDate
  rw [rounds_eq_zero_iff.mpr hWaiting]
  exact Nat.zero_le 1

/- What is known and what is waited for is all that matters. -/
theorem ready_of_eq
    (hReady : server.Ready horizon uri)
    (hDocuments : next.documents = server.documents)
    (hService : next.service = server.service)
    (hWaiting : next.waiting = server.waiting) :
    next.Ready horizon uri := by
  refine ⟨upToDate_of_eq hReady.upToDate hDocuments hService, ?_⟩
  intro request inquiry hSelection
  rw [hWaiting] at hSelection
  rw [document?, hDocuments, hService]
  exact hReady.inquires hSelection

end Server

namespace Handler

open Server Turn

variable {horizon : Horizon}
variable {uri : Bytes}
variable {turn : Turn}

/- What was found is delivered. -/
theorem ready_deliver
    (hUpToDate : turn.server.UpToDate horizon uri)
    (hWaiting : turn.server.waiting = none)
    (recipient : Recipient)
    (purpose : Purpose)
    (block? : Option CommentBlock) :
    ((deliver recipient purpose block?).runFrom turn).2.server.Ready
      horizon uri := by
  have hAsks :=
    asks_of_looksUp
      (looksUp_deliver (Nat.le_refl 1) recipient purpose block?)
  exact
    ready_of_rounds_le_one
      (upToDate_of_keeps hUpToDate
        (sameKnowledge_deliver recipient purpose block?))
      (hAsks turn hWaiting).rounds_le

/- The comment is looked up in an open document, and delivered. -/
theorem ready_compute
    {inquiry : Inquiry}
    (hUpToDate : turn.server.UpToDate horizon uri)
    (hWaiting : turn.server.waiting = none)
    (hKeys : horizon.TellsApart)
    (hOpen :
      turn.server.document? inquiry.document.uri =
        some inquiry.document)
    (hHolds : turn.server.service.registry.Holds inquiry.grammar) :
    ((compute inquiry).runFrom turn).2.server.Ready horizon uri := by
  have hAsks :=
    asks_of_looksUp (looksUp_compute (Nat.le_refl 1) inquiry)
  exact
    ready_of_rounds_le_one
      (upToDate_compute hUpToDate hKeys hOpen hHolds)
      (hAsks turn hWaiting).rounds_le

/- What is waited for after a request, or after it cannot be sent. -/
theorem waiting_ask_wait
    (request : Request)
    (waiting : Bytes → Waiting)
    (turn : Turn) :
    let next :=
      ((ask request >>= fun id => wait (waiting id)).runFrom turn).2
    next.server.waiting = some (waiting (nextId turn)) ∨
      next.server.waiting = turn.server.waiting := by
  intro next
  by_cases hFrame :
      (requestFrame (nextId turn) request).isPrintable = true
  · left
    unfold next
    rw [runFrom_bind_of_ok (runFrom_ask_of_isPrintable hFrame)]
    rfl
  · right
    unfold next
    rw [runFrom_bind_of_error (runFrom_ask_of_not_isPrintable hFrame)]
    rfl

/- The selection of the client is asked for, and waited for. -/
theorem ready_ask_wait
    {inquiry : Inquiry}
    (hUpToDate : turn.server.UpToDate horizon uri)
    (hWaiting : turn.server.waiting = none)
    (hOpen :
      turn.server.document? inquiry.document.uri =
        some inquiry.document)
    (hHolds : turn.server.service.registry.Holds inquiry.grammar)
    (request : Request) :
    ((ask request >>= fun id =>
      wait (.selection id inquiry)).runFrom turn).2.server.Ready
        horizon uri := by
  have hKeeps :=
    sameKnowledge_ask_wait request (fun id => .selection id inquiry)
  have hThen := upToDate_of_keeps hUpToDate hKeeps
  rcases
      waiting_ask_wait request (fun id => .selection id inquiry)
        turn with
    hWaits | hSame
  · refine ⟨hThen, ?_⟩
    intro other asked hOther
    rw [hWaits] at hOther
    cases hOther
    have hSame := hKeeps turn
    rw [document?, hSame.documents_eq, hSame.service_eq]
    exact ⟨hOpen, hHolds⟩
  · exact ready_of_waiting_eq_none hThen (hSame.trans hWaiting)

/-
  A lookup is answered from the document that is open, or waits
  for the selection of the client.
-/
theorem ready_lookUp
    (hUpToDate : turn.server.UpToDate horizon uri)
    (hWaiting : turn.server.waiting = none)
    (hKeys : horizon.TellsApart)
    (files : Files)
    (recipient : Recipient)
    (purpose : Purpose)
    (params : Json) :
    ((lookUp files recipient purpose params).runFrom
      turn).2.server.Ready horizon uri := by
  have hStays := ready_of_waiting_eq_none hUpToDate hWaiting
  unfold lookUp
  cases params.documentUri with
  | error e => exact hStays
  | ok place =>
      rw [read_ok, pure_bind, runFrom_server_bind]
      cases hOpen : turn.server.document? place with
      | none => exact ready_deliver hUpToDate hWaiting _ _ none
      | some document =>
          dsimp only
          cases params.documentPosition with
          | error e => exact hStays
          | ok position =>
              rw [read_ok, pure_bind]
              rcases
                  upToDate_grammarFor hUpToDate files
                    document.languageId with
                ⟨result, next, hRun, hThen, hDocuments, hSame, hHolds⟩
              have hFree : next.server.waiting = none :=
                hSame.trans hWaiting
              cases result with
              | error e =>
                  rw [runFrom_bind_of_error hRun]
                  exact ready_of_waiting_eq_none hThen hFree
              | ok grammar? =>
                  rw [runFrom_bind_of_ok hRun]
                  cases grammar? with
                  | none => exact ready_deliver hThen hFree _ _ none
                  | some grammar =>
                      have hPlace := (hUpToDate.mayPut hOpen).uri_eq
                      have hOpenThen :
                          next.server.document? document.uri =
                            some document := by
                        rw [hPlace, document?, hDocuments]
                        exact hOpen
                      dsimp only
                      rw [runFrom_server_bind]
                      split
                      · exact
                          ready_ask_wait hThen hFree hOpenThen
                            (hHolds grammar rfl) _
                      · exact
                          ready_compute hThen hFree hKeys hOpenThen
                            (hHolds grammar rfl)

/- The server goes on with a result, or without one. -/
theorem ready_resume
    {waiting : Waiting}
    (hReady : turn.server.Ready horizon uri)
    (hWaiting : turn.server.waiting = some waiting)
    (hKeys : horizon.TellsApart)
    (result? : Option Json) :
    ((resume waiting result?).runFrom turn).2.server.Ready horizon
      uri := by
  cases waiting with
  | gloss request recipient block =>
      apply ready_of_waiting_eq_none
      · exact
          upToDate_of_keeps hReady.upToDate
            (sameKnowledge_resume_gloss _ _ _ _)
      · have hAsks :=
          asksAt_resume (.gloss request recipient block) result? turn
        exact rounds_eq_zero_iff.mp (Nat.le_zero.mp hAsks.rounds_le)
  | selection request inquiry =>
      -- No message was taken up since the client was asked.
      rcases hReady.inquires hWaiting with ⟨hOpen, hHolds⟩
      have hUpToDate : turn.unwaiting.server.UpToDate horizon uri :=
        upToDate_of_eq hReady.upToDate rfl rfl
      have hFree : turn.unwaiting.server.waiting = none := rfl
      have hSplit :
          (resume (.selection request inquiry) result?).runFrom turn =
            (proceed result? (.selection request inquiry)).runFrom
              turn.unwaiting := rfl
      rw [hSplit, proceed]
      cases Selection.ofResult? result? with
      | error e => exact ready_of_waiting_eq_none hUpToDate hFree
      | ok selection? =>
          rw [read_ok, pure_bind]
          split
          · exact ready_deliver hUpToDate hFree _ _ _
          · exact ready_compute hUpToDate hFree hKeys hOpen hHolds

end Handler

------------------------------------------------------------
-- Steps
------------------------------------------------------------

namespace Session

open Turn

/-
  A message that has arrived can be taken up, and misleads the
  server about the document at a place.
-/
structure Misleads
    (arrived : Incoming → Prop)
    (uri : Bytes)
    (message : Json)
    (turn : Turn) : Prop where
  hasMethod : message.HasMethod "textDocument/didChange"
  misledBy : turn.server.MisledBy uri message.params
  arrived : arrived (.message message)
  waiting_eq : turn.server.waiting = none
  goesOn : turn.server.isOver = false

/-
  On the way from one turn to another, a message was taken up
  that misled the server about the document at a place.
-/
def Misled
    (files : Files)
    (arrived : Incoming → Prop)
    (uri : Bytes)
    (start turn : Turn) : Prop :=
  ∃ before message,
    Steps files arrived start before ∧
      Misleads arrived uri message before ∧
        Steps files arrived
          ((before.note (.handled message)).attempt
            (Recipient.ofMessage message)
            (Handler.handle files message))
          turn

variable {files : Files}
variable {descriptors : List Descriptor}
variable {incoming : List Incoming}
variable {uri : Bytes}
variable {turn next : Turn}

/- Messages all of whose changes can be read mislead nobody. -/
theorem not_misled_of_wellFormed
    {arrived : Incoming → Prop}
    {start : Turn}
    (hMessages :
      ∀ message, arrived (.message message) → message.WellFormed) :
    ¬Misled files arrived uri start turn := by
  intro hMisled
  rcases hMisled with ⟨before, message, _, hMisleads, _⟩
  rcases hMisleads.misledBy with
    ⟨_, document, edited, entry, _, hHalf, _⟩
  have hRead := hMessages message hMisleads.arrived hMisleads.hasMethod
  rw [Document.halfMade?_eq_none hRead] at hHalf
  cases hHalf

/- A message is taken up that does not mislead the server. -/
theorem ready_takeUp
    {message : Json}
    (hReady :
      turn.server.Ready (horizon descriptors incoming) uri)
    (hWaiting : turn.server.waiting = none)
    (hKeys : (horizon descriptors incoming).TellsApart)
    (hArrived : .message message ∈ incoming)
    (hTold :
      message.HasMethod "textDocument/didChange" →
        ¬turn.server.MisledBy uri message.params)
    (files : Files) :
    ((turn.note (.handled message)).attempt
      (Recipient.ofMessage message)
      (Handler.handle files message)).server.Ready
        (horizon descriptors incoming) uri := by
  let noted := turn.note (.handled message)
  have hUpToDate :
      noted.server.UpToDate (horizon descriptors incoming) uri :=
    hReady.upToDate
  rw [server_attempt]
  by_cases hLookUp : message.isLookup = true
  · rcases Json.isLookup_iff.mp hLookUp with ⟨purpose, hMethod⟩
    rw [Handler.handle_of_lookUp hMethod]
    exact
      Handler.ready_lookUp hUpToDate hWaiting hKeys files _ purpose
        message.params
  · have hMethod :
        ∀ purpose : Purpose, ¬message.HasMethod purpose.method :=
      fun purpose hMethod =>
        hLookUp (Json.isLookup_iff.mpr ⟨purpose, hMethod⟩)
    have hNext :=
      Handler.upToDate_handle hUpToDate hMethod
        (fun hOpens document hDocument =>
          ⟨message, hArrived, hOpens, hDocument⟩)
        hTold files
    exact
      Server.ready_of_waiting_eq_none hNext.1
        (hNext.2.trans hWaiting)

/- Every step leaves the server ready, or misleads it. -/
theorem ready_of_step
    (hReady :
      turn.server.Ready (horizon descriptors incoming) uri)
    (hKeys : (horizon descriptors incoming).TellsApart)
    (hStep : Step files (· ∈ incoming) turn next) :
    next.server.Ready (horizon descriptors incoming) uri ∨
      Misled files (· ∈ incoming) uri turn next := by
  cases hStep with
  | @takeUp message hArrived hWaiting hGoesOn =>
      by_cases hMisled :
          message.HasMethod "textDocument/didChange" ∧
            turn.server.MisledBy uri message.params
      · right
        exact
          ⟨turn, message, .refl,
            ⟨hMisled.1, hMisled.2, hArrived, hWaiting, hGoesOn⟩,
            .refl⟩
      · left
        exact
          ready_takeUp hReady hWaiting hKeys hArrived
            (fun hMethod hParams => hMisled ⟨hMethod, hParams⟩) files
  | @answer message waiting _ hWaiting _ =>
      left
      let taken :=
        (turn.note (.answered message)).noteFailure waiting message
      have hTaken : taken.server = turn.server := by
        unfold taken noteFailure
        split <;> rfl
      rw [server_attempt]
      apply Handler.ready_resume _ _ hKeys
      · rw [hTaken]
        exact hReady
      · rw [hTaken]
        exact hWaiting
  | giveUp hWaiting _ =>
      left
      rw [server_attempt]
      exact Handler.ready_resume hReady hWaiting hKeys none
  | interrupt _ _ =>
      left
      rw [Turn.server_refuse]
      exact
        Server.ready_of_waiting_eq_none
          (Server.upToDate_of_eq hReady.upToDate rfl rfl) rfl
  | enqueue _ => exact .inl (Server.ready_of_eq hReady rfl rfl rfl)
  | close => exact .inl (Server.ready_of_eq hReady rfl rfl rfl)
  | crash _ _ => exact .inl (Server.ready_of_eq hReady rfl rfl rfl)
  | remark _ => exact .inl hReady

/- So do all steps. -/
theorem ready_of_steps
    (hReady :
      turn.server.Ready (horizon descriptors incoming) uri)
    (hKeys : (horizon descriptors incoming).TellsApart)
    (hSteps : Steps files (· ∈ incoming) turn next) :
    next.server.Ready (horizon descriptors incoming) uri ∨
      Misled files (· ∈ incoming) uri turn next := by
  induction hSteps with
  | refl => exact .inl hReady
  | tail hFirst hStep ih =>
      rcases ih with hThen | hMisled
      · rcases ready_of_step hThen hKeys hStep with hNext | hMisled
        · exact .inl hNext
        · rcases hMisled with
            ⟨before, message, hBefore, hMisleads, hAfter⟩
          right
          exact
            ⟨before, message, hFirst.trans hBefore, hMisleads,
              hAfter⟩
      · rcases hMisled with
          ⟨before, message, hBefore, hMisleads, hAfter⟩
        right
        exact
          ⟨before, message, hBefore, hMisleads, hAfter.tail hStep⟩

------------------------------------------------------------
-- What Lookups Find
------------------------------------------------------------

end Session

/-
  Lookups in the document at a place are answered from the lines
  that are stored for it: those that are to come, whatever their
  grammar is, and the one that waits for a selection.
-/
structure Server.LooksUpStored
    (files : Files)
    (uri : Bytes)
    (server : Server) : Prop where
  next :
    ∀ {document : Document} {grammar : LoadedGrammar}
      {service : Service} {remarks : List Diagnostic},
      server.document? uri = some document →
        server.service.grammarFor files document.languageId =
            (.ok (some grammar), service, remarks) →
          ∀ position,
            (service.compute document grammar position).1 =
              .ok (service.lookUpAnew document grammar position)
  selected :
    ∀ {request : Bytes} {inquiry : Inquiry},
      server.waiting = some (.selection request inquiry) →
        inquiry.document.uri = uri →
          server.document? uri = some inquiry.document ∧
            (server.service.compute inquiry.document inquiry.grammar
                inquiry.position).1 =
              .ok
                (server.service.lookUpAnew inquiry.document
                  inquiry.grammar inquiry.position)

/- A server that is ready answers from the lines that are stored. -/
theorem Server.looksUpStored_of_ready
    {horizon : Horizon}
    {uri : Bytes}
    {server : Server}
    (hReady : server.Ready horizon uri)
    (files : Files) :
    server.LooksUpStored files uri := by
  have hUpToDate := hReady.upToDate
  constructor
  · intro document grammar service remarks hOpen hFor position
    rcases
        Registry.numbered_grammarFor hUpToDate.numbered files
          document.languageId with
      ⟨hNumbered, hGrows, hHolds⟩
    have hResult := congrArg Prod.fst hFor
    have hService : _ = service :=
      congrArg (fun out => out.2.1) hFor
    have hGrown := upToDate_grown hUpToDate hNumbered hGrows
    rw [← hService]
    rcases
        Service.compute_of_current hNumbered (hGrown.current hOpen)
          (hHolds grammar hResult) position with
      ⟨entry, later, hCompute, _⟩
    exact congrArg Prod.fst hCompute
  · intro request inquiry hWaiting hPlace
    rcases hReady.inquires hWaiting with ⟨hOpen, hHolds⟩
    rw [hPlace] at hOpen
    rcases
        Service.compute_of_current hUpToDate.numbered
          (hUpToDate.current hOpen) hHolds inquiry.position with
      ⟨entry, later, hCompute, _⟩
    rw [hCompute]
    exact ⟨hOpen, rfl⟩

/-
  In every state of a session, lookups in the document at a place
  are answered from the lines that are stored for it, unless a
  change misled the server about it.
-/
theorem Session.looksUpStored_or_misled
    {engine : BoundedEngine}
    {files : Files}
    {descriptors : List Descriptor}
    {incoming : List Incoming}
    {turn : Turn}
    (hKeys : (horizon descriptors incoming).TellsApart)
    (hSteps :
      Turn.Steps files (· ∈ incoming)
        ⟨Server.create engine descriptors, []⟩ turn)
    (uri : Bytes) :
    turn.server.LooksUpStored files uri ∨
      Misled files (· ∈ incoming) uri
        ⟨Server.create engine descriptors, []⟩ turn := by
  have hStart :
      (Server.create engine descriptors).Ready
        (horizon descriptors incoming) uri :=
    Server.ready_of_waiting_eq_none
      (Server.upToDate_create _ uri engine descriptors) rfl
  rcases ready_of_steps hStart hKeys hSteps with hReady | hMisled
  · exact .inl (Server.looksUpStored_of_ready hReady files)
  · exact .inr hMisled

------------------------------------------------------------
-- A Session with a Change
------------------------------------------------------------

namespace Session.Changing

/- The messages of a session in which all of the change can be read. -/
def messages : List Json :=
  [opened, asked 1, changed []]

/- They are some of the conversation with a lookup after the change. -/
theorem mem_conversation_of_arrived
    {message : Json}
    (hArrived : .message message ∈ messages.map Incoming.message) :
    message ∈ conversation := by
  have hMessage : message ∈ messages := by
    simpa using hArrived
  have hAll : conversation = messages ++ [asked 2] := rfl
  rw [hAll]
  exact List.mem_append_left _ hMessage

/- Only the first document is opened. -/
theorem eq_first_of_opens
    {document : Document}
    (hOpens :
      (horizon descriptors (messages.map Incoming.message)).opens
        document) :
    document = first := by
  rcases hOpens with ⟨message, hMember, hMethod, hDocument⟩
  exact
    eq_first_of_mem (mem_conversation_of_arrived hMember) hMethod
      hDocument

/-
  After the change the next lookup is answered from the second
  document, although its version is that of the first.
-/
theorem looksUpStored_messages :
    (received .standard files descriptors
          (messages.map Incoming.message)).server.LooksUpStored files
        first.uri := by
  have hKeys :
      (horizon descriptors
        (messages.map Incoming.message)).TellsApart := by
    intro a b hA hB _
    rw [eq_first_of_opens hA, eq_first_of_opens hB]
    exact ⟨rfl, rfl⟩
  have hSteps :
      Turn.Steps files (· ∈ messages.map Incoming.message)
        ⟨Server.create .standard descriptors, []⟩
        (received .standard files descriptors
          (messages.map Incoming.message)) :=
    steps_foldl_receive (messages.map Incoming.message) _
      (Turn.sound_create _ .standard descriptors) (fun _ hItem => hItem)
  exact
    (looksUpStored_or_misled hKeys hSteps first.uri).resolve_right
      (not_misled_of_wellFormed (fun _ hArrived =>
        wellFormed_of_mem (mem_conversation_of_arrived hArrived)))

end Session.Changing

------------------------------------------------------------
-- Lines That Are Not Stored
------------------------------------------------------------

/-
  After a lookup in a document, a part of a change of it may be
  made that keeps the version.  The next lookup then finds what
  the document held before.
-/
theorem Server.compute_of_halfMade
    {horizon : Horizon}
    {uri : Bytes}
    {server : Server}
    {params : Json}
    {document edited : Document}
    {grammar : LoadedGrammar}
    (hUpToDate : server.UpToDate horizon uri)
    (hOpen : server.document? uri = some document)
    (hHolds : server.service.registry.Holds grammar)
    (hHalf : document.halfMade? params = some edited)
    (hVersion : edited.version = document.version)
    (first position : Position) :
    let looked := (server.service.compute document grammar first).2
    (looked.compute edited grammar position).1 =
      .ok (looked.lookUpAnew document grammar position) := by
  rcases Document.sameKey_of_halfMade? hHalf with
    ⟨hUri, hLanguage, _⟩
  have hKey : ParseCache.keyOf edited = ParseCache.keyOf document := by
    rw [ParseCache.keyOf, ParseCache.keyOf, hUri, hLanguage]
  exact
    Service.compute_of_sameVersion hUpToDate.numbered
      (hUpToDate.current hOpen) hHolds hKey hVersion first position

/- A comment that is found is reported. -/
theorem Handler.runFrom_compute_report
    {inquiry : Inquiry}
    {lookup : CommentLookup}
    {service : Service}
    {turn : Turn}
    (hCompute :
      turn.server.service.compute inquiry.document inquiry.grammar
          inquiry.position =
        (.ok lookup, service))
    (hPurpose : inquiry.purpose = .report)
    (hFrame :
      (resultFrame inquiry.recipient
        (Replica.resultOf lookup.block?)).isPrintable = true) :
    (compute inquiry).runFrom turn =
      (.ok (),
        ((turn.update (fun s => { s with service := service })).note
          (.remarked
            (Service.remark inquiry.document inquiry.position
              lookup))).note
          (.sent
            (resultFrame inquiry.recipient
              (Replica.resultOf lookup.block?)))) := by
  have hDeliver :
      deliver inquiry.recipient .report lookup.block? =
        answer inquiry.recipient
          (Replica.resultOf lookup.block?) := by
    cases lookup.block? <;> rfl
  unfold compute
  rw [runFrom_server_bind, hCompute]
  dsimp only
  rw [runFrom_update_bind, runFrom_remark_bind, hPurpose, hDeliver]
  exact runFrom_send_of_isPrintable hFrame _

------------------------------------------------------------
-- A Session with Half a Change
------------------------------------------------------------

namespace Session.Halfway

open Session.Changing (first second opened asked changed descriptors
  table files evaluated block)

/- The change, with an edit after the first that has no text. -/
def halfChanged : Json :=
  changed [Json.record []]

/- The messages up to the second lookup. -/
def messages : List Json :=
  [opened, asked 1, halfChanged]

/- The session when the first lookup is taken up. -/
def begun : Turn :=
  (received .standard files descriptors [.message opened]).note
    (.handled (asked 1))

/- The grammar is found. -/
def learned : Except HandlerError (Option LoadedGrammar) × Turn :=
  (Handler.grammarFor files first.languageId).runFrom begun

/- The grammar that is found. -/
def grammar : LoadedGrammar :=
  match learned.1 with
  | .ok (some grammar) => grammar
  | _ => default

/- The report of the first document as a comment. -/
def report (id : Int) : Json :=
  Changing.report id first

/- The grammar can be evaluated. -/
theorem grammar_eq_evaluated :
    grammar.grammar = evaluated := by
  have hLoaded :
      Grammar.ofJson .standard table =
        (.ok (some grammar.grammar), []) :=
    rfl
  have hSame := hLoaded.symm.trans Changing.ofJson_table
  exact
    Option.some.inj (Except.ok.inj (Prod.mk.inj hSame).1)

/- Each of the documents is a comment. -/
theorem lookUpAnew_block :
    ∀ document ∈ [first, second],
      learned.2.server.service.lookUpAnew document grammar ⟨0, 0⟩ =
        .found (block document) := by
  intro document hDocument
  rw [Service.lookUpAnew, grammar_eq_evaluated]
  exact Changing.answer_block document hDocument

/- The service once the grammar is found, with some cache. -/
def serviceWith (cache : ParseCache) : Service :=
  { learned.2.server.service with cache := cache }

/- Lookups in both documents, one after the other, find the first. -/
theorem compute_first_second :
    ∃ once twice,
      learned.2.server.service.compute first grammar ⟨0, 0⟩ =
          (.ok (.found (block first)), serviceWith once) ∧
        (serviceWith once).compute second grammar ⟨0, 0⟩ =
          (.ok (.found (block first)), serviceWith twice) := by
  let service := learned.2.server.service
  have hFound :=
    Registry.numbered_grammarFor
      (Registry.numbered_create .standard descriptors
        Registry.defaultExcluded)
      files first.languageId
  have hNumbered : service.registry.Numbered := hFound.1
  have hHolds : service.registry.Holds grammar :=
    hFound.2.2 grammar rfl
  have hCurrent :
      service.cache.Current service.registry service.maxLength
        first :=
    ParseCache.current_of_entries_eq_nil rfl first
  have hKey : ParseCache.keyOf second = ParseCache.keyOf first := rfl
  have hBlock := lookUpAnew_block first List.mem_cons_self
  rcases
      Service.compute_of_current hNumbered hCurrent hHolds ⟨0, 0⟩ with
    ⟨_, once, hFirst, _⟩
  have hSecond :
      ((serviceWith once).compute second grammar ⟨0, 0⟩).1 =
        .ok (.found (block first)) := by
    have hSame :=
      Service.compute_of_sameVersion hNumbered hCurrent hHolds hKey
        rfl ⟨0, 0⟩ ⟨0, 0⟩
    rw [hFirst] at hSame
    exact hSame.trans (congrArg Except.ok hBlock)
  refine
    ⟨once,
      ((serviceWith once).compute second grammar ⟨0, 0⟩).2.cache,
      ?_, Prod.ext hSecond rfl⟩
  rw [hFirst, hBlock]
  rfl

/- The turn after a lookup that finds the first document. -/
def told
    (id : Int)
    (document : Document)
    (cache : ParseCache)
    (turn : Turn) : Turn :=
  ((turn.update (fun s =>
    { s with service := serviceWith cache })).note
      (.remarked
        (Service.remark document ⟨0, 0⟩ (.found (block first))))).note
          (.sent (report id))

/- A lookup that finds the first document. -/
theorem attempt_asked
    (id : Int)
    (document : Document)
    {cache : ParseCache}
    {turn next : Turn}
    (hUri : document.uri = first.uri)
    (hOpen : turn.server.document? first.uri = some document)
    (hGrammar :
      (Handler.grammarFor files document.languageId).runFrom turn =
        (.ok (some grammar), next))
    (hAsks : next.server.asksSelection = false)
    (hCompute :
      next.server.service.compute document grammar ⟨0, 0⟩ =
        (.ok (.found (block first)), serviceWith cache))
    (hFrame : (report id).isPrintable = true) :
    turn.attempt (Recipient.ofMessage (asked id))
        (Handler.handle files (asked id)) =
      told id document cache next := by
  have hMethod : (asked id).HasMethod Purpose.report.method := rfl
  let inquiry : Inquiry :=
    { recipient := Recipient.ofMessage (asked id)
      purpose := .report
      document := document
      position := ⟨0, 0⟩
      grammar := grammar }
  have hRead :
      (asked id).params.documentUri = .ok inquiry.document.uri := by
    change Except.ok first.uri = Except.ok document.uri
    rw [hUri]
  have hThere :
      turn.server.document? inquiry.document.uri =
        some inquiry.document := by
    change turn.server.document? document.uri = some document
    rw [hUri]
    exact hOpen
  have hFound :
      next.server.service.compute inquiry.document inquiry.grammar
          inquiry.position =
        (.ok (.found (block first)), serviceWith cache) := hCompute
  have hLookUp :=
    Handler.runFrom_lookUp hRead hThere rfl hGrammar hAsks
  have hReport :=
    Handler.runFrom_compute_report hFound rfl hFrame
  rw [Handler.handle_of_lookUp hMethod]
  exact Turn.attempt_of_ok (hLookUp.trans hReport) _

/- The session after the change, which was made half way. -/
def halved (once : ParseCache) : Turn :=
  ((told 1 first once learned.2).note (.handled halfChanged)).update
    (fun s => s.store second)

/- It is reached after the first lookup. -/
theorem received_messages
    {once : ParseCache}
    (hFirst :
      learned.2.server.service.compute first grammar ⟨0, 0⟩ =
        (.ok (.found (block first)), serviceWith once)) :
    received .standard files descriptors (messages.map Incoming.message) =
      halved once := by
  have hReceived :
      received .standard files descriptors (messages.map Incoming.message) =
        Turn.receive files
          (begun.attempt (Recipient.ofMessage (asked 1))
            (Handler.handle files (asked 1))).giveUp.giveUp
          (.message halfChanged) :=
    rfl
  rw [hReceived,
    attempt_asked 1 first rfl rfl rfl rfl hFirst (by decide)]
  rfl

/- The second lookup finds what the first one found. -/
theorem receive_asked
    {once twice : ParseCache}
    (hSecond :
      (serviceWith once).compute second grammar ⟨0, 0⟩ =
        (.ok (.found (block first)), serviceWith twice)) :
    Turn.receive files (halved once) (.message (asked 2)) =
      told 2 second twice
        ((halved once).note (.handled (asked 2))) := by
  let begunAgain := (halved once).note (.handled (asked 2))
  have hGrammar :
      (Handler.grammarFor files second.languageId).runFrom
          begunAgain =
        (.ok (some grammar), begunAgain) :=
    rfl
  have hReceive :
      Turn.receive files (halved once) (.message (asked 2)) =
        (begunAgain.attempt (Recipient.ofMessage (asked 2))
          (Handler.handle files (asked 2))).giveUp.giveUp :=
    rfl
  rw [hReceive,
    attempt_asked 2 second rfl rfl hGrammar rfl hSecond (by decide)]
  rfl

/-
  The change was made half way, and the second lookup reports
  what the document held before, not what it holds.
-/
theorem frames_halfChanged :
    let turn :=
      run files (Server.create .standard descriptors)
        ((messages ++ [asked 2]).map Incoming.message)
    frames turn = [report 1, report 2] ∧
      turn.server.document? first.uri = some second ∧
        turn.server.service.lookUpAnew second grammar ⟨0, 0⟩ =
            .found (block second) ∧
          block second ≠ block first := by
  intro turn
  rcases compute_first_second with ⟨once, twice, hFirst, hSecond⟩
  have hTurn :
      turn =
        (Turn.receive files
          (received .standard files descriptors
            (messages.map Incoming.message))
          (.message (asked 2))).finish files :=
    rfl
  rw [received_messages hFirst, receive_asked hSecond] at hTurn
  rw [hTurn]
  refine ⟨rfl, rfl, ?_, by decide⟩
  exact lookUpAnew_block second (by simp)

end Session.Halfway

end Marginalia

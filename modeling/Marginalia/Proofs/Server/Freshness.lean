import Marginalia.Proofs.Server.Lookups

/-
  This file says what keeps a server up to date about the
  document at a place: what the cache holds for the version of
  the document is the document itself.

  What was tokenized of a document is forgotten once a change of
  it is made.  But if an edit of the change cannot be read, those
  before it stay made and nothing is forgotten.  This misleads
  the server if the cache holds an entry for the version that the
  document has by then.  Nothing else does.

  Key definitions include:
    * `Server.UpToDate`
    * `Server.MisledBy`
  The main statements are:
    * `Server.upToDate_of_changed`
    * `Server.upToDate_compute`
    * `Handler.upToDate_handle`
    * `Handler.upToDate_compute`
-/

namespace Marginalia

------------------------------------------------------------
-- What Is Up to Date
------------------------------------------------------------

namespace Server

/-
  Documents are open where they were opened, and what the cache
  holds for the version of the one at a place is this document.
-/
structure UpToDate
    (horizon : Horizon)
    (uri : Bytes)
    (server : Server) : Prop where
  mayPut :
    ∀ {place : Bytes} {document : Document},
      server.document? place = some document →
        MayPut horizon place document
  numbered : server.service.registry.Numbered
  current :
    ∀ {document : Document},
      server.document? uri = some document →
        server.service.cache.Current server.service.registry
          server.service.maxLength document

variable {horizon : Horizon}
variable {uri : Bytes}
variable {server next : Server}

/- A service may change if the cache is current then. -/
theorem upToDate_of_service
    (hUpToDate : UpToDate horizon uri server)
    (hDocuments :
      ∀ place, next.document? place = server.document? place)
    (hNumbered : next.service.registry.Numbered)
    (hCurrent :
      ∀ document,
        server.document? uri = some document →
          next.service.cache.Current next.service.registry
            next.service.maxLength document) :
    UpToDate horizon uri next := by
  refine ⟨?_, hNumbered, ?_⟩
  · intro place document hOpen
    rw [hDocuments] at hOpen
    exact hUpToDate.mayPut hOpen
  · intro document hOpen
    rw [hDocuments] at hOpen
    exact hCurrent document hOpen

/- Only what is open and the service matter. -/
theorem upToDate_of_known
    (hUpToDate : UpToDate horizon uri server)
    (hDocuments :
      ∀ place, next.document? place = server.document? place)
    (hService : next.service = server.service) :
    UpToDate horizon uri next := by
  apply upToDate_of_service hUpToDate hDocuments
  · rw [hService]
    exact hUpToDate.numbered
  · intro document hOpen
    rw [hService]
    exact hUpToDate.current hOpen

/- Servers with the same documents have the same ones open. -/
theorem upToDate_of_eq
    (hUpToDate : UpToDate horizon uri server)
    (hDocuments : next.documents = server.documents)
    (hService : next.service = server.service) :
    UpToDate horizon uri next := by
  apply upToDate_of_known hUpToDate _ hService
  intro place
  rw [document?, document?, hDocuments]

/- A new server has nothing open. -/
theorem upToDate_create
    (horizon : Horizon)
    (uri : Bytes)
    (engine : BoundedEngine)
    (descriptors : List Descriptor) :
    UpToDate horizon uri (create engine descriptors) := by
  refine ⟨?_, Registry.numbered_create engine descriptors _, ?_⟩
  · intro place document hOpen
    cases hOpen
  · intro document hOpen
    cases hOpen

------------------------------------------------------------
-- Changes of Documents
------------------------------------------------------------

/-
  What is open at a place may change if the cache only loses
  entries, and is current for what is put there.
-/
theorem upToDate_put
    {place : Bytes}
    {document? : Option Document}
    (hUpToDate : UpToDate horizon uri server)
    (hSetup : SameSetup server next)
    (hDocuments :
      ∀ other,
        next.document? other =
          if other = place then document? else server.document? other)
    (hMayPut :
      ∀ document ∈ document?, MayPut horizon place document)
    (hKept :
      ∀ key entry,
        next.service.cache.find? key = some entry →
          server.service.cache.find? key = some entry)
    (hCurrent :
      uri = place →
        ∀ document ∈ document?,
          next.service.cache.Current server.service.registry
            server.service.maxLength document) :
    UpToDate horizon uri next := by
  refine ⟨?_, ?_, ?_⟩
  · intro other document hOpen
    rw [hDocuments] at hOpen
    by_cases hSame : other = place
    · rw [if_pos hSame] at hOpen
      rw [hSame]
      exact hMayPut document hOpen
    · rw [if_neg hSame] at hOpen
      exact hUpToDate.mayPut hOpen
  · rw [hSetup.registry_eq]
    exact hUpToDate.numbered
  · intro document hOpen
    rw [hDocuments] at hOpen
    rw [hSetup.registry_eq, hSetup.maxLength_eq]
    by_cases hSame : uri = place
    · rw [if_pos hSame] at hOpen
      exact hCurrent hSame document hOpen
    · rw [if_neg hSame] at hOpen
      exact
        ParseCache.current_of_kept (hUpToDate.current hOpen)
          (Registry.grows_refl _) (hKept _)

/- Forgetting what was tokenized only loses entries. -/
theorem find?_of_find?_forgetAt
    {place key : Bytes}
    {entry : CacheEntry}
    (hFind :
      (server.forgetAt place).service.cache.find? key = some entry) :
    server.service.cache.find? key = some entry := by
  unfold forgetAt at hFind
  cases hOpen : server.document? place with
  | none =>
      rw [hOpen] at hFind
      exact hFind
  | some document =>
      rw [hOpen] at hFind
      exact ParseCache.find?_of_find?_erase hFind

/- A document is opened. -/
theorem upToDate_opened
    {document : Document}
    (hUpToDate : UpToDate horizon uri server)
    (hOpens : horizon.opens document) :
    UpToDate horizon uri
      (((server.forgetAt document.uri).forget document.languageId
        document.uri).store document) := by
  have hSetup := sameSetup_forgetAt server document.uri
  apply upToDate_put hUpToDate
  · exact
      ⟨hSetup.defaults_eq, hSetup.registry_eq, hSetup.settings_eq,
        hSetup.maxLength_eq⟩
  · exact document?_opened server document
  · exact mayPut_of_opens hOpens
  · intro key entry hFind
    exact
      find?_of_find?_forgetAt (ParseCache.find?_of_find?_erase hFind)
  · intro _ other hOther
    cases hOther
    exact ParseCache.current_erase rfl

/- A document is closed. -/
theorem upToDate_closed
    (hUpToDate : UpToDate horizon uri server)
    (place : Bytes) :
    UpToDate horizon uri ((server.forgetAt place).discard place) := by
  have hSetup := sameSetup_forgetAt server place
  apply upToDate_put hUpToDate
  · exact
      ⟨hSetup.defaults_eq, hSetup.registry_eq, hSetup.settings_eq,
        hSetup.maxLength_eq⟩
  · exact document?_closed server place
  · intro document hDocument
    cases hDocument
  · intro key entry hFind
    exact find?_of_find?_forgetAt hFind
  · intro _ document hDocument
    cases hDocument

/-
  A change misleads the server about the document at a place:
  only a part of it is made, and the cache holds an entry for the
  version that the document has then.
-/
def MisledBy
    (server : Server)
    (uri : Bytes)
    (params : Json) : Prop :=
  params.documentUri = .ok uri ∧
    ∃ document edited entry,
      server.document? uri = some document ∧
        document.halfMade? params = some edited ∧
          server.service.cache.find? (ParseCache.keyOf edited) =
              some entry ∧
            entry.document.version = edited.version

/- Storing a document keeps the setup. -/
theorem sameSetup_of_stored
    {place : Bytes}
    {document : Document}
    (hStored : Stored place document server next) :
    SameSetup server next := by
  rcases hStored with ⟨_, hDefaults, hService⟩
  constructor
  · exact hDefaults
  · rw [hService]
  · rw [hService]
  · rw [hService]

/- A document stays where it was opened if its key stays. -/
theorem mayPut_of_sameKey
    {place : Bytes}
    {document edited : Document}
    (hMayPut : MayPut horizon place document)
    (hKey :
      edited.uri = document.uri ∧
        edited.languageId = document.languageId) :
    MayPut horizon place edited := by
  constructor
  · rw [hKey.1]
    exact hMayPut.uri_eq
  · rw [hKey.1, hKey.2]
    exact hMayPut.opened

/-
  A change that does not mislead the server.  If all of it is
  made, the entry of the document is dropped.  If a part of it
  is, no entry has the version that the document has then.
-/
theorem upToDate_of_changed
    {params : Json}
    (hUpToDate : UpToDate horizon uri server)
    (hTold : ¬server.MisledBy uri params)
    (hChanged : Changed params server next) :
    UpToDate horizon uri next := by
  cases hChanged with
  | nothing hUnread hDocuments hDefaults hService =>
      exact upToDate_of_known hUpToDate hDocuments hService
  | @whole place document edited stored hUri hOpen hEdited hStored
      hForgotten =>
      have hKey := Document.sameKey_ofChanged hEdited
      have hMayPut := hUpToDate.mayPut hOpen
      have hService := hStored.service_eq
      rw [hForgotten]
      apply upToDate_put hUpToDate
      · have hSetup := sameSetup_of_stored hStored
        exact
          ⟨hSetup.defaults_eq, hSetup.registry_eq,
            hSetup.settings_eq, hSetup.maxLength_eq⟩
      · exact hStored.documents_eq
      · intro other hOther
        cases hOther
        exact mayPut_of_sameKey hMayPut hKey
      · intro key entry hFind
        rw [← hService]
        exact ParseCache.find?_of_find?_erase hFind
      · intro _ other hOther
        cases hOther
        apply ParseCache.current_erase
        rw [ParseCache.keyOf, hKey.1, hKey.2, hMayPut.uri_eq]
  | @half place document edited hUri hOpen hHalf hStored =>
      have hKey := Document.sameKey_of_halfMade? hHalf
      have hService := hStored.service_eq
      apply upToDate_put hUpToDate
      · exact sameSetup_of_stored hStored
      · exact hStored.documents_eq
      · intro other hOther
        cases hOther
        exact
          mayPut_of_sameKey (hUpToDate.mayPut hOpen)
            ⟨hKey.1, hKey.2.1⟩
      · intro key entry hFind
        rw [← hService]
        exact hFind
      · -- An entry of this version is just what would mislead.
        intro hPlace other hOther entry hFind hVersion
        cases hOther
        rw [hService] at hFind
        rw [← hPlace] at hUri hOpen
        exact
          absurd
            ⟨hUri, document, edited, entry, hOpen, hHalf, hFind,
              hVersion⟩
            hTold

------------------------------------------------------------
-- Lookups
------------------------------------------------------------

/- The registry may come to remember more. -/
theorem upToDate_grown
    {registry : Registry}
    (hUpToDate : UpToDate horizon uri server)
    (hNumbered : registry.Numbered)
    (hGrows : server.service.registry.Grows registry) :
    UpToDate horizon uri
      { server with
        service := { server.service with registry := registry } } := by
  refine upToDate_of_service hUpToDate (fun _ => rfl) hNumbered ?_
  intro document hOpen
  exact
    ParseCache.current_of_kept (hUpToDate.current hOpen) hGrows
      (fun _ hFind => hFind)

/- Documents at different places have different keys. -/
theorem keyOf_ne_of_open
    {place other : Bytes}
    {a b : Document}
    (hUpToDate : UpToDate horizon uri server)
    (hKeys : horizon.TellsApart)
    (hA : server.document? place = some a)
    (hB : server.document? other = some b)
    (hDiffer : place ≠ other) :
    ParseCache.keyOf a ≠ ParseCache.keyOf b := by
  intro hSame
  exact
    hDiffer
      (place_eq_of_keyOf_eq hKeys (hUpToDate.mayPut hA)
        (hUpToDate.mayPut hB) hSame)

/-
  A lookup in a document leaves it up to date, and any other
  document, since no two documents have the same key.
-/
theorem upToDate_compute
    {place : Bytes}
    {document : Document}
    {grammar : LoadedGrammar}
    (hUpToDate : UpToDate horizon uri server)
    (hKeys : horizon.TellsApart)
    (hOpen : server.document? place = some document)
    (hHolds : server.service.registry.Holds grammar)
    (position : Position) :
    UpToDate horizon uri
      { server with
        service :=
          (server.service.compute document grammar position).2 } := by
  refine
    upToDate_of_service hUpToDate (fun _ => rfl) hUpToDate.numbered
      ?_
  intro other hOther
  by_cases hPlace : place = uri
  · rw [← hPlace, hOpen] at hOther
    have hSame : document = other := Option.some.inj hOther
    rw [hPlace] at hOpen
    rcases
        Service.compute_of_current hUpToDate.numbered
          (hUpToDate.current hOpen) hHolds position with
      ⟨entry, later, hCompute, hTokenizes, hFind⟩
    rw [← hSame, hCompute]
    intro found hFound _
    dsimp only at hFound
    rw [hFind, if_pos rfl] at hFound
    rw [← Option.some.inj hFound]
    exact CacheEntry.fits_of_tokenizes hTokenizes hHolds
  · -- The lookup is in another document: its entry has another key.
    have hDiffer :=
      keyOf_ne_of_open hUpToDate hKeys hOther hOpen
        (fun hSame => hPlace hSame.symm)
    apply
      ParseCache.current_of_kept (hUpToDate.current hOther)
        (Registry.grows_refl _)
    intro entry hFind
    rw [← hFind]
    exact (Service.find?_compute_of_ne hDiffer grammar position).symm

------------------------------------------------------------
-- Changes of the Setup
------------------------------------------------------------

/- The server is set up, which makes a new service. -/
theorem upToDate_setUp
    {engine : BoundedEngine}
    {options : Json}
    {defaults : List Descriptor}
    (hUpToDate : UpToDate horizon uri server)
    (hDocuments :
      ∀ place, next.document? place = server.document? place)
    (hService :
      next.service = SetupOptions.service engine options defaults) :
    UpToDate horizon uri next := by
  have hRegistry :
      ∃ descriptors excluded,
        next.service.registry =
          Registry.create engine descriptors excluded := by
    rw [hService, SetupOptions.service]
    split <;> exact ⟨_, _, rfl⟩
  have hEntries : next.service.cache.entries = [] := by
    rw [hService, SetupOptions.service]
    split <;> rfl
  apply upToDate_of_service hUpToDate hDocuments
  · rcases hRegistry with ⟨descriptors, excluded, hRegistry⟩
    rw [hRegistry]
    exact Registry.numbered_create engine descriptors excluded
  · intro document _
    exact ParseCache.current_of_entries_eq_nil hEntries document

/- The configuration is changed. -/
theorem upToDate_configure
    {values : Json}
    (hUpToDate : UpToDate horizon uri server)
    (hDocuments :
      ∀ place, next.document? place = server.document? place)
    (hService :
      next.service = Handler.applySettings values server.service) :
    UpToDate horizon uri next := by
  rw [Handler.applySettings] at hService
  apply upToDate_of_service hUpToDate hDocuments
  · rw [hService]
    split <;> exact hUpToDate.numbered
  · intro document hOpen
    rw [hService]
    split
    · exact hUpToDate.current hOpen
    · exact ParseCache.current_of_entries_eq_nil rfl document

end Server

------------------------------------------------------------
-- Handlers
------------------------------------------------------------

namespace Handler

open Server Turn

variable {horizon : Horizon}
variable {uri : Bytes}
variable {turn : Turn}

/- A change that does not mislead the server is handled. -/
theorem upToDate_changed
    {params : Json}
    (hUpToDate : turn.server.UpToDate horizon uri)
    (hTold : ¬turn.server.MisledBy uri params) :
    ((changed params).runFrom turn).2.server.UpToDate horizon uri :=
  upToDate_of_changed hUpToDate hTold
    (changed_changed (fun hOpen => (hUpToDate.mayPut hOpen).uri_eq)
      params)

/- What the handling of any message but a lookup leaves up to date. -/
theorem upToDate_dispatch
    {method : Bytes}
    {params : Json}
    (hUpToDate : turn.server.UpToDate horizon uri)
    (hMethod : ∀ purpose : Purpose, method ≠ utf8 purpose.method)
    (hOpens :
      method = utf8 "textDocument/didOpen" →
        ∀ document,
          Document.ofOpened params = .ok document →
            horizon.opens document)
    (hTold :
      method = utf8 "textDocument/didChange" →
        ¬turn.server.MisledBy uri params)
    (files : Files)
    (recipient : Recipient) :
    ((dispatch files recipient method params).runFrom
      turn).2.server.UpToDate horizon uri := by
  cases dispatched_dispatch hMethod files recipient params with
  | setUp _ hHandler =>
      rw [hHandler, setUp]
      simp only [runFrom_update_bind, runFrom_server_bind,
        runFrom_remark_bind, answer, server_send]
      exact upToDate_setUp hUpToDate (fun _ => rfl) rfl
  | opened hSame hHandler =>
      rw [hHandler, opened]
      cases hDocument : Document.ofOpened params with
      | error e => exact hUpToDate
      | ok document =>
          exact
            upToDate_opened hUpToDate (hOpens hSame document hDocument)
  | changed hSame hHandler =>
      rw [hHandler]
      exact upToDate_changed hUpToDate (hTold hSame)
  | closed _ hHandler =>
      rw [hHandler, closed]
      cases params.documentUri with
      | error e => exact hUpToDate
      | ok place => exact upToDate_closed hUpToDate place
  | configure _ hHandler =>
      rw [hHandler, configure]
      split
      · exact hUpToDate
      · exact upToDate_configure hUpToDate (fun _ => rfl) rfl
  | other _ hDocuments _ hService =>
      exact
        upToDate_of_eq hUpToDate (hDocuments turn) (hService turn)

/- What the handling of any message but a lookup leaves up to date. -/
theorem upToDate_handle
    {message : Json}
    (hUpToDate : turn.server.UpToDate horizon uri)
    (hMethod :
      ∀ purpose : Purpose, ¬message.HasMethod purpose.method)
    (hOpens :
      message.HasMethod "textDocument/didOpen" →
        ∀ document,
          Document.ofOpened message.params = .ok document →
            horizon.opens document)
    (hTold :
      message.HasMethod "textDocument/didChange" →
        ¬turn.server.MisledBy uri message.params)
    (files : Files) :
    let next := ((handle files message).runFrom turn).2.server
    next.UpToDate horizon uri ∧
      next.waiting = turn.server.waiting := by
  intro next
  cases hText : message.text? "method" with
  | some method =>
      have hHas :
          ∀ name : String,
            method = utf8 name → message.HasMethod name := by
        intro name hSame
        rw [Json.HasMethod, hText, hSame]
      have hOther : ∀ purpose : Purpose, method ≠ utf8 purpose.method :=
        fun purpose hSame => hMethod purpose (hHas _ hSame)
      simp only [next, handle_of_method hText files]
      constructor
      · exact
          upToDate_dispatch hUpToDate hOther
            (fun hSame => hOpens (hHas _ hSame))
            (fun hSame => hTold (hHas _ hSame)) files _
      · exact waiting_dispatch hOther files _ _ turn
  | none =>
      have hSame : next = turn.server :=
        server_handle_of_text?_eq_none hText files turn
      rw [hSame]
      exact ⟨hUpToDate, rfl⟩

------------------------------------------------------------
-- Lookups of Messages
------------------------------------------------------------

/- Delivering what was found teaches the server nothing. -/
theorem sameKnowledge_deliver
    (recipient : Recipient)
    (purpose : Purpose)
    (block? : Option CommentBlock) :
    Keeps SameKnowledge (deliver recipient purpose block?) := by
  unfold deliver
  split
  · exact sameKnowledge_send _
  · exact sameKnowledge_send _
  · exact sameKnowledge_deliverHover _ _

/- What the server knows is up to date if it stays the same. -/
theorem upToDate_of_keeps
    {h : Handler Unit}
    (hUpToDate : turn.server.UpToDate horizon uri)
    (hKeeps : Keeps SameKnowledge h) :
    (h.runFrom turn).2.server.UpToDate horizon uri :=
  upToDate_of_eq hUpToDate (hKeeps turn).documents_eq
    (hKeeps turn).service_eq

/- The comment is looked up in an open document, and delivered. -/
theorem upToDate_compute
    {inquiry : Inquiry}
    (hUpToDate : turn.server.UpToDate horizon uri)
    (hKeys : horizon.TellsApart)
    (hOpen :
      turn.server.document? inquiry.document.uri =
        some inquiry.document)
    (hHolds : turn.server.service.registry.Holds inquiry.grammar) :
    ((compute inquiry).runFrom turn).2.server.UpToDate horizon
      uri := by
  have hThen :=
    Server.upToDate_compute hUpToDate hKeys hOpen hHolds
      inquiry.position
  unfold compute
  rw [runFrom_server_bind]
  cases hCompute :
      turn.server.service.compute inquiry.document inquiry.grammar
        inquiry.position with
  | mk result service =>
      rw [hCompute] at hThen
      dsimp only
      rw [runFrom_update_bind]
      cases result with
      | error e => exact hThen
      | ok lookup =>
          rw [runFrom_remark_bind]
          exact
            upToDate_of_keeps hThen (sameKnowledge_deliver _ _ _)

/- A grammar is looked for. -/
theorem upToDate_grammarFor
    (hUpToDate : turn.server.UpToDate horizon uri)
    (files : Files)
    (language : Bytes) :
    ∃ result next,
      (grammarFor files language).runFrom turn = (result, next) ∧
        next.server.UpToDate horizon uri ∧
          next.server.documents = turn.server.documents ∧
            next.server.waiting = turn.server.waiting ∧
              ∀ grammar,
                result = .ok (some grammar) →
                  next.server.service.registry.Holds grammar := by
  rcases
      Registry.numbered_grammarFor hUpToDate.numbered files
        language with
    ⟨hNumbered, hGrows, hHolds⟩
  rcases Turn.exists_runFrom_grammarFor files language turn with
    ⟨next, hRun, _, hServer⟩
  refine ⟨_, next, hRun, ?_, ?_, ?_, ?_⟩
  · rw [hServer]
    exact upToDate_grown hUpToDate hNumbered hGrows
  · rw [hServer]
  · rw [hServer]
  · intro grammar hGrammar
    rw [hServer]
    apply hHolds
    cases hFor :
        (turn.server.service.registry.grammarFor files language).1 with
    | error e =>
        rw [hFor] at hGrammar
        cases hGrammar
    | ok grammar? =>
        rw [hFor] at hGrammar
        cases hGrammar
        rfl

end Handler

end Marginalia

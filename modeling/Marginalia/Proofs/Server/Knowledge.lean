import Marginalia.Proofs.Service
import Marginalia.Proofs.Server.Documents

/-
  This file proves that a server knows what a server without a
  memory knows, and that its memory is right: its registry
  remembers what the files hold, and its cache holds documents
  that are open.

  Each way in which the server changes what it knows keeps this.

  Key definitions include:
    * `Server.Agrees`
    * `Handler.Dispatched`
  The main statements are:
    * `Server.agrees_opened`
    * `Server.agrees_edited`
    * `Server.agrees_closed`
    * `Server.agrees_compute`
    * `Handler.agrees_handle`
-/

namespace Marginalia

------------------------------------------------------------
-- What Is Known
------------------------------------------------------------

namespace Server

/-
  The server knows what the replica does, and its memory is
  right.
-/
structure Agrees
    (files : Files)
    (horizon : Horizon)
    (replica : Replica)
    (server : Server) : Prop where
  documents_eq : ∀ uri, server.document? uri = replica.documents uri
  defaults_eq : server.defaults = replica.defaults
  engine_eq :
    server.service.registry.engine = replica.registry.engine
  descriptors_eq :
    server.service.registry.descriptors = replica.registry.descriptors
  excluded_eq :
    server.service.registry.excluded = replica.registry.excluded
  settings_eq : server.service.settings = replica.settings
  maxLength_eq : server.service.maxLength = replica.maxLength
  named : ∀ d ∈ replica.registry.descriptors, horizon.names d
  uri_eq :
    ∀ {uri : Bytes} {document : Document},
      replica.documents uri = some document → document.uri = uri
  opened :
    ∀ {uri : Bytes} {document : Document},
      replica.documents uri = some document →
        ∃ first,
          horizon.opens first ∧
            first.languageId = document.languageId ∧
              first.uri = document.uri
  remembers : server.service.registry.Remembers files
  valid :
    server.service.cache.Valid replica.IsOpen
      server.service.registry server.service.maxLength

variable {files : Files}
variable {horizon : Horizon}
variable {replica : Replica}
variable {server next : Server}

/- Only what is open, the defaults and the service matter. -/
theorem agrees_of_known
    (hAgrees : Agrees files horizon replica server)
    (hDocuments : ∀ uri, next.document? uri = server.document? uri)
    (hDefaults : next.defaults = server.defaults)
    (hService : next.service = server.service) :
    Agrees files horizon replica next := by
  constructor
  · intro uri
    rw [hDocuments]
    exact hAgrees.documents_eq uri
  · rw [hDefaults]
    exact hAgrees.defaults_eq
  · rw [hService]
    exact hAgrees.engine_eq
  · rw [hService]
    exact hAgrees.descriptors_eq
  · rw [hService]
    exact hAgrees.excluded_eq
  · rw [hService]
    exact hAgrees.settings_eq
  · rw [hService]
    exact hAgrees.maxLength_eq
  · exact hAgrees.named
  · exact hAgrees.uri_eq
  · exact hAgrees.opened
  · rw [hService]
    exact hAgrees.remembers
  · rw [hService]
    exact hAgrees.valid

/- Servers with the same documents have the same ones open. -/
theorem agrees_of_eq
    (hAgrees : Agrees files horizon replica server)
    (hDocuments : next.documents = server.documents)
    (hDefaults : next.defaults = server.defaults)
    (hService : next.service = server.service) :
    Agrees files horizon replica next := by
  apply agrees_of_known hAgrees _ hDefaults hService
  intro uri
  rw [document?, document?, hDocuments]

/- A new server knows nothing but its descriptors. -/
theorem agrees_create
    {descriptors : List Descriptor}
    (hNamed : ∀ d ∈ descriptors, horizon.names d)
    (engine : BoundedEngine)
    (files : Files) :
    Agrees files horizon (Replica.start engine descriptors)
      (create engine descriptors) := by
  constructor
  · intro uri
    rfl
  · rfl
  · rfl
  · rfl
  · rfl
  · rfl
  · rfl
  · exact hNamed
  · intro uri document hOpen
    cases hOpen
  · intro uri document hOpen
    cases hOpen
  · exact Registry.remembers_create files engine descriptors _
  · exact ParseCache.valid_of_entries_eq_nil rfl

------------------------------------------------------------
-- Changes of Documents
------------------------------------------------------------

/- The servers were set up in the same way. -/
structure SameSetup (server next : Server) : Prop where
  defaults_eq : next.defaults = server.defaults
  registry_eq : next.service.registry = server.service.registry
  settings_eq : next.service.settings = server.service.settings
  maxLength_eq : next.service.maxLength = server.service.maxLength

/- The document is open, and not at the place. -/
def IsOpenElsewhere
    (replica : Replica)
    (uri : Bytes)
    (document : Document) : Prop :=
  document.uri ≠ uri ∧ replica.IsOpen document

/- A document may be put at a place if it was opened there. -/
structure MayPut
    (horizon : Horizon)
    (uri : Bytes)
    (document : Document) : Prop where
  uri_eq : document.uri = uri
  opened :
    ∃ first,
      horizon.opens first ∧
        first.languageId = document.languageId ∧
          first.uri = document.uri

/- Documents at different places have different keys. -/
theorem place_eq_of_keyOf_eq
    {place other : Bytes}
    {a b : Document}
    (hKeys : horizon.TellsApart)
    (hA : MayPut horizon place a)
    (hB : MayPut horizon other b)
    (hSame : ParseCache.keyOf a = ParseCache.keyOf b) :
    place = other := by
  rcases hA.opened with ⟨x, hX, hXLanguage, hXUri⟩
  rcases hB.opened with ⟨y, hY, hYLanguage, hYUri⟩
  have hFirst : ParseCache.keyOf x = ParseCache.keyOf y := by
    rw [ParseCache.keyOf, ParseCache.keyOf, hXLanguage, hXUri,
      hYLanguage, hYUri]
    exact hSame
  rw [← hA.uri_eq, ← hB.uri_eq, ← hXUri, ← hYUri]
  exact (hKeys x y hX hY hFirst).2

/- What is open at a place after a change there. -/
theorem documents_put
    (replica : Replica)
    (uri other : Bytes)
    (document? : Option Document) :
    (replica.put uri document?).documents other =
      if other = uri then document? else replica.documents other :=
  rfl

/-
  What is open at a place may change if no entry of the cache
  is left for the document that was open there.
-/
theorem agrees_put
    {uri : Bytes}
    {document? : Option Document}
    (hAgrees : Agrees files horizon replica server)
    (hSetup : SameSetup server next)
    (hDocuments :
      ∀ other,
        next.document? other =
          if other = uri then document? else server.document? other)
    (hMayPut : ∀ document ∈ document?, MayPut horizon uri document)
    (hValid :
      next.service.cache.Valid (IsOpenElsewhere replica uri)
        server.service.registry server.service.maxLength) :
    Agrees files horizon (replica.put uri document?) next := by
  constructor
  · intro other
    rw [hDocuments, documents_put, hAgrees.documents_eq]
  · rw [hSetup.defaults_eq]
    exact hAgrees.defaults_eq
  · rw [hSetup.registry_eq]
    exact hAgrees.engine_eq
  · rw [hSetup.registry_eq]
    exact hAgrees.descriptors_eq
  · rw [hSetup.registry_eq]
    exact hAgrees.excluded_eq
  · rw [hSetup.settings_eq]
    exact hAgrees.settings_eq
  · rw [hSetup.maxLength_eq]
    exact hAgrees.maxLength_eq
  · exact hAgrees.named
  · intro other document hOpen
    rw [documents_put] at hOpen
    by_cases hSame : other = uri
    · rw [if_pos hSame] at hOpen
      rw [hSame]
      exact (hMayPut document hOpen).uri_eq
    · rw [if_neg hSame] at hOpen
      exact hAgrees.uri_eq hOpen
  · intro other document hOpen
    rw [documents_put] at hOpen
    by_cases hSame : other = uri
    · rw [if_pos hSame] at hOpen
      exact (hMayPut document hOpen).opened
    · rw [if_neg hSame] at hOpen
      exact hAgrees.opened hOpen
  · rw [hSetup.registry_eq]
    exact hAgrees.remembers
  · rw [hSetup.registry_eq, hSetup.maxLength_eq]
    intro key entry hFind
    rcases hValid key entry hFind with
      ⟨document, ⟨hElsewhere, hOpen⟩, hRest⟩
    refine ⟨document, ?_, hRest⟩
    rw [Replica.IsOpen, documents_put, if_neg hElsewhere]
    exact hOpen

/- Forgetting what was tokenized keeps the setup. -/
theorem sameSetup_forgetAt
    (server : Server)
    (uri : Bytes) :
    SameSetup server (server.forgetAt uri) := by
  unfold forgetAt
  cases server.document? uri <;> exact ⟨rfl, rfl, rfl, rfl⟩

/- Without its entry nothing is left of the document at a place. -/
theorem valid_forgetAt
    (hAgrees : Agrees files horizon replica server)
    (uri : Bytes) :
    (server.forgetAt uri).service.cache.Valid
      (IsOpenElsewhere replica uri)
      server.service.registry server.service.maxLength := by
  unfold forgetAt
  rw [hAgrees.documents_eq]
  cases hOpen : replica.documents uri with
  | none =>
      intro key entry hFind
      rcases hAgrees.valid key entry hFind with
        ⟨document, hDocument, hRest⟩
      refine ⟨document, ⟨?_, hDocument⟩, hRest⟩
      intro hSame
      rw [Replica.IsOpen, hSame, hOpen] at hDocument
      cases hDocument
  | some old =>
      apply ParseCache.valid_erase hAgrees.valid
      intro document hDocument hKey
      refine ⟨?_, hDocument⟩
      intro hSame
      rw [Replica.IsOpen, hSame, hOpen] at hDocument
      have hOld : old = document := Option.some.inj hDocument
      apply hKey
      rw [ParseCache.keyOf, ← hOld, hAgrees.uri_eq hOpen]

/- What is open after a document is opened. -/
theorem document?_opened
    (server : Server)
    (document : Document)
    (place : Bytes) :
    (((server.forgetAt document.uri).forget document.languageId
        document.uri).store document).document? place =
      if place = document.uri then some document
      else server.document? place := by
  rw [document?_store]
  by_cases hSame : place = document.uri
  · rw [if_pos hSame, if_pos hSame]
  · rw [if_neg hSame, if_neg hSame]
    exact document?_forgetAt server document.uri place

/- What is open after a document is closed. -/
theorem document?_closed
    (server : Server)
    (uri place : Bytes) :
    ((server.forgetAt uri).discard uri).document? place =
      if place = uri then none else server.document? place := by
  rw [document?_discard, document?_forgetAt]

/- The document that is opened may be put at its place. -/
theorem mayPut_of_opens
    {document : Document}
    (hOpens : horizon.opens document) :
    ∀ other ∈ some document, MayPut horizon document.uri other := by
  intro other hOther
  cases hOther
  exact ⟨rfl, document, hOpens, rfl, rfl⟩

/- A document is opened. -/
theorem agrees_opened
    {document : Document}
    (hAgrees : Agrees files horizon replica server)
    (hOpens : horizon.opens document) :
    Agrees files horizon (replica.put document.uri (some document))
      (((server.forgetAt document.uri).forget document.languageId
        document.uri).store document) := by
  have hSetup := sameSetup_forgetAt server document.uri
  apply agrees_put hAgrees
  · exact
      ⟨hSetup.defaults_eq, hSetup.registry_eq, hSetup.settings_eq,
        hSetup.maxLength_eq⟩
  · exact document?_opened server document
  · exact mayPut_of_opens hOpens
  · apply ParseCache.valid_erase (valid_forgetAt hAgrees document.uri)
    intro other hOther _
    exact hOther

/- A document is closed. -/
theorem agrees_closed
    (hAgrees : Agrees files horizon replica server)
    (uri : Bytes) :
    Agrees files horizon (replica.put uri none)
      ((server.forgetAt uri).discard uri) := by
  have hSetup := sameSetup_forgetAt server uri
  apply agrees_put hAgrees
  · exact
      ⟨hSetup.defaults_eq, hSetup.registry_eq, hSetup.settings_eq,
        hSetup.maxLength_eq⟩
  · exact document?_closed server uri
  · intro document hDocument
    cases hDocument
  · exact valid_forgetAt hAgrees uri

/-
  A document is changed: what was tokenized of it is forgotten,
  and it stays at its place in its language.
-/
theorem agrees_edited
    {uri : Bytes}
    {old document : Document}
    (hAgrees : Agrees files horizon replica server)
    (hOld : replica.documents uri = some old)
    (hUri : document.uri = old.uri)
    (hLanguage : document.languageId = old.languageId)
    (hStored : Stored uri document server next) :
    Agrees files horizon (replica.put uri (some document))
      (next.forget old.languageId uri) := by
  have hForget :
      (server.forgetAt uri).service =
        (next.forget old.languageId uri).service := by
    unfold forgetAt
    rw [hAgrees.documents_eq, hOld]
    simp [forget, hStored.service_eq]
  have hSetup := sameSetup_forgetAt server uri
  apply agrees_put hAgrees
  · constructor
    · exact hStored.defaults_eq
    · rw [← hForget]
      exact hSetup.registry_eq
    · rw [← hForget]
      exact hSetup.settings_eq
    · rw [← hForget]
      exact hSetup.maxLength_eq
  · exact hStored.documents_eq
  · intro other hOther
    have hSame : document = other := Option.some.inj hOther
    rw [← hSame]
    constructor
    · rw [hUri]
      exact hAgrees.uri_eq hOld
    · rw [hUri, hLanguage]
      exact hAgrees.opened hOld
  · rw [← hForget]
    exact valid_forgetAt hAgrees uri

------------------------------------------------------------
-- Changes of the Setup
------------------------------------------------------------

/- The server is set up, which makes a new service. -/
theorem agrees_setUp
    {params : Json}
    (hAgrees : Agrees files horizon replica server)
    (hNamed :
      ∀ d ∈ (replica.setUp params).registry.descriptors,
        horizon.names d)
    (hDocuments : next.documents = server.documents)
    (hDefaults : next.defaults = server.defaults)
    (hService :
      next.service =
        SetupOptions.service server.service.registry.engine
          ((params.object? "initializationOptions").getD .null)
          server.defaults) :
    Agrees files horizon (replica.setUp params) next := by
  have hSame := hAgrees.defaults_eq
  rw [SetupOptions.service, hAgrees.engine_eq, hSame] at hService
  constructor
  · intro uri
    rw [document?, hDocuments]
    exact hAgrees.documents_eq uri
  · rw [hDefaults]
    exact hSame
  · rw [hService]
    split <;> rfl
  · rw [hService]
    split <;> rfl
  · rw [hService]
    split <;> rfl
  · rw [hService]
    split <;> rfl
  · rw [hService]
    split
    · next hNone =>
        simp only [Replica.setUp, hNone]
        rfl
    · next length hLength =>
        simp only [Replica.setUp, hLength]
        rfl
  · exact hNamed
  · exact hAgrees.uri_eq
  · exact hAgrees.opened
  · rw [hService]
    split <;> exact Registry.remembers_create files _ _ _
  · apply ParseCache.valid_of_entries_eq_nil
    rw [hService]
    split <;> rfl

/- The configuration is changed. -/
theorem agrees_configure
    {values : Json}
    (hAgrees : Agrees files horizon replica server)
    (params : Json)
    (hValues :
      (params.object? "settings").bind (fun s => s.object? "honyaku") =
        some values)
    (hDocuments : next.documents = server.documents)
    (hDefaults : next.defaults = server.defaults)
    (hService :
      next.service = Handler.applySettings values server.service) :
    Agrees files horizon (replica.configure params) next := by
  have hReplica :
      replica.configure params =
        { replica with
          settings :=
            (Handler.updateOf values replica.settings).apply
              replica.settings
          maxLength :=
            (SetupOptions.maxLength? values).getD
              replica.maxLength } := by
    rw [Replica.configure, hValues]
  rw [hReplica]
  rw [Handler.applySettings] at hService
  constructor
  · intro uri
    rw [document?, hDocuments]
    exact hAgrees.documents_eq uri
  · rw [hDefaults]
    exact hAgrees.defaults_eq
  · rw [hService, ← hAgrees.engine_eq]
    split <;> rfl
  · rw [hService, ← hAgrees.descriptors_eq]
    split <;> rfl
  · rw [hService, ← hAgrees.excluded_eq]
    split <;> rfl
  · rw [hService, ← hAgrees.settings_eq]
    split <;> rfl
  · rw [hService, ← hAgrees.maxLength_eq]
    split
    · next hNone => rw [hNone]; rfl
    · next length hLength => rw [hLength]; rfl
  · exact hAgrees.named
  · exact hAgrees.uri_eq
  · exact hAgrees.opened
  · rw [hService]
    split <;> exact hAgrees.remembers
  · rw [hService]
    split
    · exact hAgrees.valid
    · exact ParseCache.valid_of_entries_eq_nil rfl

------------------------------------------------------------
-- Lookups
------------------------------------------------------------

/- The registry may come to remember more. -/
theorem agrees_grown
    {registry : Registry}
    (hAgrees : Agrees files horizon replica server)
    (hRemembers : registry.Remembers files)
    (hGrows : server.service.registry.Grows registry) :
    Agrees files horizon replica
      { server with
        service := { server.service with registry := registry } } where
  documents_eq := hAgrees.documents_eq
  defaults_eq := hAgrees.defaults_eq
  engine_eq := hGrows.engine_eq.trans hAgrees.engine_eq
  descriptors_eq :=
    hGrows.descriptors_eq.trans hAgrees.descriptors_eq
  excluded_eq := hGrows.excluded_eq.trans hAgrees.excluded_eq
  settings_eq := hAgrees.settings_eq
  maxLength_eq := hAgrees.maxLength_eq
  named := hAgrees.named
  uri_eq := hAgrees.uri_eq
  opened := hAgrees.opened
  remembers := hRemembers
  valid := ParseCache.valid_of_grows hAgrees.valid hGrows

/- The cache may come to hold other entries that are valid. -/
theorem agrees_cached
    {cache : ParseCache}
    (hAgrees : Agrees files horizon replica server)
    (hValid :
      cache.Valid replica.IsOpen server.service.registry
        server.service.maxLength) :
    Agrees files horizon replica
      { server with
        service := { server.service with cache := cache } } :=
  { hAgrees with valid := hValid }

/- Open documents with the same key are the same. -/
theorem eq_of_keyOf_eq
    {a b : Document}
    (hAgrees : Agrees files horizon replica server)
    (hKeys : horizon.TellsApart)
    (hA : replica.IsOpen a)
    (hB : replica.IsOpen b)
    (hSame : ParseCache.keyOf a = ParseCache.keyOf b) :
    a = b := by
  have hUri : a.uri = b.uri :=
    place_eq_of_keyOf_eq hKeys ⟨rfl, hAgrees.opened hA⟩
      ⟨rfl, hAgrees.opened hB⟩ hSame
  rw [Replica.IsOpen, hUri] at hA
  exact Option.some.inj (hA.symm.trans hB)

/-
  What is looked up in a document that is open is what a server
  without a memory finds.
-/
theorem agrees_compute
    {document : Document}
    {grammar : LoadedGrammar}
    (hAgrees : Agrees files horizon replica server)
    (hKeys : horizon.TellsApart)
    (hOpen : replica.IsOpen document)
    (hHolds : server.service.registry.Holds grammar)
    (position : Position) :
    ∃ service,
      server.service.compute document grammar position =
          (.ok (replica.lookUp document grammar.grammar position),
            service) ∧
        Agrees files horizon replica
          { server with service := service } := by
  have hCurrent :=
    ParseCache.current_of_valid hAgrees.valid
      (fun other hOther hSame =>
        eq_of_keyOf_eq hAgrees hKeys hOther hOpen hSame)
  rcases
      Service.compute_of_current
        (Registry.numbered_of_remembers hAgrees.remembers) hCurrent
        hHolds position with
    ⟨entry, later, hCompute, hTokenizes, hFind⟩
  have hFits := CacheEntry.fits_of_tokenizes hTokenizes hHolds
  refine
    ⟨{ server.service with cache := later }, ?_,
      agrees_cached hAgrees
        (ParseCache.valid_of_answered hAgrees.valid hOpen hFits
          hFind)⟩
  rw [hCompute, Service.lookUpAnew, Replica.lookUp,
    ← hAgrees.settings_eq, ← hAgrees.maxLength_eq]

end Server

------------------------------------------------------------
-- Handlers
------------------------------------------------------------

namespace Handler

open Server

variable {files : Files}
variable {horizon : Horizon}
variable {replica : Replica}
variable {turn : Turn}

/- Sending a frame leaves the server as it is. -/
theorem server_send
    (frame : Json)
    (turn : Turn) :
    ((send frame).runFrom turn).2.server = turn.server := by
  by_cases hFrame : frame.isPrintable = true
  · rw [runFrom_send_of_isPrintable hFrame]
    rfl
  · rw [runFrom_send_of_not_isPrintable hFrame]

/- The first request is handled. -/
theorem agrees_setUp
    {params : Json}
    (hAgrees : Agrees files horizon replica turn.server)
    (hNamed :
      ∀ d ∈ (replica.setUp params).registry.descriptors,
        horizon.names d)
    (recipient : Recipient) :
    Agrees files horizon (replica.setUp params)
      ((setUp recipient params).runFrom turn).2.server := by
  unfold setUp
  simp only [runFrom_update_bind, runFrom_server_bind,
    runFrom_remark_bind, answer, server_send]
  apply Server.agrees_setUp hAgrees hNamed
  · rfl
  · rfl
  · rfl

/- The opening of a document is handled. -/
theorem agrees_opened
    {params : Json}
    (hAgrees : Agrees files horizon replica turn.server)
    (hOpens :
      ∀ document,
        Document.ofOpened params = .ok document →
            horizon.opens document) :
    Agrees files horizon (replica.opened params)
      ((opened params).runFrom turn).2.server := by
  unfold opened Replica.opened
  cases hDocument : Document.ofOpened params with
  | error e => simpa using hAgrees
  | ok document =>
      exact Server.agrees_opened hAgrees (hOpens document hDocument)

/- The change of a document is handled. -/
theorem agrees_changed
    {params : Json}
    (hAgrees : Agrees files horizon replica turn.server)
    (hEdits :
      ∀ changes,
        params.member "contentChanges" = .ok changes →
          ∃ edits, changes.elements.mapM Edit.ofJson = .ok edits) :
    Agrees files horizon (replica.changed params)
      ((changed params).runFrom turn).2.server := by
  have hPlaces :
      ∀ {uri : Bytes} {document : Document},
        turn.server.document? uri = some document →
          document.uri = uri := by
    intro uri document hOpen
    rw [hAgrees.documents_eq] at hOpen
    exact hAgrees.uri_eq hOpen
  cases changed_changed hPlaces params with
  | nothing hUnread hDocuments hDefaults hService =>
      have hSame : replica.changed params = replica := by
        rw [Replica.changed]
        cases hUri : params.documentUri with
        | error e => rfl
        | ok uri =>
            dsimp only
            cases hOpen : replica.documents uri with
            | none => rfl
            | some document =>
                rcases
                    hUnread uri document hUri
                      ((hAgrees.documents_eq uri).trans hOpen) with
                  ⟨e, hError⟩
                dsimp only
                rw [hError]
      rw [hSame]
      exact agrees_of_known hAgrees hDocuments hDefaults hService
  | whole hUri hOpen hEdited hStored hForgotten =>
      rw [hAgrees.documents_eq] at hOpen
      have hKey := Document.sameKey_ofChanged hEdited
      rw [Replica.changed, hUri]
      dsimp only
      rw [hOpen]
      dsimp only
      rw [hEdited, hForgotten]
      exact agrees_edited hAgrees hOpen hKey.1 hKey.2 hStored
  | half hUri hOpen hHalf hStored =>
      rw [Document.halfMade?_eq_none hEdits] at hHalf
      cases hHalf

/- The closing of a document is handled. -/
theorem agrees_closed
    (hAgrees : Agrees files horizon replica turn.server)
    (params : Json) :
    Agrees files horizon (replica.closed params)
      ((closed params).runFrom turn).2.server := by
  unfold closed Replica.closed
  cases hUri : params.documentUri with
  | error e => simpa using hAgrees
  | ok uri => exact Server.agrees_closed hAgrees uri

/- A change of the configuration is handled. -/
theorem agrees_configure
    (hAgrees : Agrees files horizon replica turn.server)
    (params : Json) :
    Agrees files horizon (replica.configure params)
      ((configure params).runFrom turn).2.server := by
  unfold configure
  cases hValues :
      (params.object? "settings").bind
        (fun s => s.object? "honyaku") with
  | none => simpa [Replica.configure, hValues] using hAgrees
  | some values =>
      apply Server.agrees_configure hAgrees params hValues
      · rfl
      · rfl
      · rfl

/- A refusal leaves the server as it is. -/
theorem server_refuse
    (recipient : Recipient)
    (method : Bytes)
    (turn : Turn) :
    ((refuse recipient method).runFrom turn).2.server =
      turn.server := by
  unfold refuse
  split
  · rfl
  · exact server_send _ turn

/-
  What the handling of any message but a lookup is: one of the
  messages that change what is known, or one that changes
  nothing of it.
-/
inductive Dispatched
    (recipient : Recipient)
    (method : Bytes)
    (params : Json)
    (h : Handler Unit) : Prop
| setUp
    (hMethod : method = utf8 "initialize")
    (hHandler : h = Handler.setUp recipient params)
| opened
    (hMethod : method = utf8 "textDocument/didOpen")
    (hHandler : h = Handler.opened params)
| changed
    (hMethod : method = utf8 "textDocument/didChange")
    (hHandler : h = Handler.changed params)
| closed
    (hMethod : method = utf8 "textDocument/didClose")
    (hHandler : h = Handler.closed params)
| configure
    (hMethod : method = utf8 "workspace/didChangeConfiguration")
    (hHandler : h = Handler.configure params)
| other
    (hReplica :
      ∀ replica : Replica,
        replica.dispatch method params = replica)
    (hDocuments :
      ∀ turn,
        (h.runFrom turn).2.server.documents = turn.server.documents)
    (hDefaults :
      ∀ turn,
        (h.runFrom turn).2.server.defaults = turn.server.defaults)
    (hService :
      ∀ turn,
        (h.runFrom turn).2.server.service = turn.server.service)

/- The handling of any message but a lookup is one of these. -/
theorem dispatched_dispatch
    {method : Bytes}
    (hMethod : ∀ purpose : Purpose, method ≠ utf8 purpose.method)
    (files : Files)
    (recipient : Recipient)
    (params : Json) :
    Dispatched recipient method params
      (dispatch files recipient method params) := by
  have hHover : method ≠ utf8 "textDocument/hover" :=
    hMethod .hover
  have hReport : method ≠ utf8 "honyaku/commentAtPosition" :=
    hMethod .report
  by_cases hSetUp : method = utf8 "initialize"
  · exact .setUp hSetUp (by rw [hSetUp]; rfl)
  · by_cases hOpened : method = utf8 "textDocument/didOpen"
    · exact .opened hOpened (by rw [hOpened]; rfl)
    · by_cases hChanged : method = utf8 "textDocument/didChange"
      · exact .changed hChanged (by rw [hChanged]; rfl)
      · by_cases hClosed : method = utf8 "textDocument/didClose"
        · exact .closed hClosed (by rw [hClosed]; rfl)
        · by_cases hConfigure :
              method = utf8 "workspace/didChangeConfiguration"
          · exact .configure hConfigure (by rw [hConfigure]; rfl)
          · unfold dispatch
            rw [if_neg hSetUp, if_neg hOpened, if_neg hChanged,
              if_neg hClosed, if_neg hConfigure, if_neg hHover,
              if_neg hReport]
            have hReplica :
                ∀ replica : Replica,
                  replica.dispatch method params = replica := by
              intro replica
              rw [Replica.dispatch, if_neg hSetUp, if_neg hOpened,
                if_neg hChanged, if_neg hClosed, if_neg hConfigure]
            refine .other hReplica ?_ ?_ ?_
            all_goals
              intro turn
              split
              · rfl
              · split
                · rw [runFrom_update_bind, answer, server_send]
                  rfl
                · split
                  · rfl
                  · rw [server_refuse]

/- What the handling of any message but a lookup leaves known. -/
theorem agrees_dispatch
    {method : Bytes}
    {params : Json}
    (hAgrees : Agrees files horizon replica turn.server)
    (hMethod : ∀ purpose : Purpose, method ≠ utf8 purpose.method)
    (hNamed :
      method = utf8 "initialize" →
        ∀ d ∈ (replica.setUp params).registry.descriptors,
          horizon.names d)
    (hOpens :
      method = utf8 "textDocument/didOpen" →
        ∀ document,
          Document.ofOpened params = .ok document →
            horizon.opens document)
    (hEdits :
      method = utf8 "textDocument/didChange" →
        ∀ changes,
          params.member "contentChanges" = .ok changes →
            ∃ edits, changes.elements.mapM Edit.ofJson = .ok edits)
    (recipient : Recipient) :
    Agrees files horizon (replica.dispatch method params)
      ((dispatch files recipient method params).runFrom
        turn).2.server := by
  cases dispatched_dispatch hMethod files recipient params with
  | setUp hSame hHandler =>
      have hDescriptors := hNamed hSame
      rw [hHandler, hSame]
      exact agrees_setUp hAgrees hDescriptors recipient
  | opened hSame hHandler =>
      have hDocuments := hOpens hSame
      rw [hHandler, hSame]
      exact agrees_opened hAgrees hDocuments
  | changed hSame hHandler =>
      have hChanges := hEdits hSame
      rw [hHandler, hSame]
      exact agrees_changed hAgrees hChanges
  | closed hSame hHandler =>
      rw [hHandler, hSame]
      exact agrees_closed hAgrees params
  | configure hSame hHandler =>
      rw [hHandler, hSame]
      exact agrees_configure hAgrees params
  | other hReplica hDocuments hDefaults hService =>
      rw [hReplica]
      exact
        agrees_of_eq hAgrees (hDocuments turn) (hDefaults turn)
          (hService turn)

/- No message but a lookup changes what is waited for. -/
theorem waiting_dispatch
    {method : Bytes}
    (hMethod : ∀ purpose : Purpose, method ≠ utf8 purpose.method)
    (files : Files)
    (recipient : Recipient)
    (params : Json)
    (turn : Turn) :
    ((dispatch files recipient method params).runFrom
      turn).2.server.waiting = turn.server.waiting := by
  have hHover : method ≠ utf8 "textDocument/hover" :=
    hMethod .hover
  have hReport : method ≠ utf8 "honyaku/commentAtPosition" :=
    hMethod .report
  unfold dispatch
  rw [if_neg hHover, if_neg hReport]
  repeat' split
  · exact Turn.waiting_of_calm (calm_setUp _ _ turn)
  · rfl
  · exact Turn.waiting_of_quiet (quiet_opened _ turn)
  · exact Turn.waiting_of_quiet (quiet_changed _ turn)
  · exact Turn.waiting_of_quiet (quiet_closed _ turn)
  · exact Turn.waiting_of_quiet (quiet_configure _ turn)
  · rw [runFrom_update_bind, answer, server_send]
    rfl
  · rfl
  · exact Turn.waiting_of_calm (calm_refuse _ _ turn)

/- A message without a method changes nothing. -/
theorem server_handle_of_text?_eq_none
    {message : Json}
    (hText : message.text? "method" = none)
    (files : Files)
    (turn : Turn) :
    ((handle files message).runFrom turn).2.server = turn.server := by
  rcases handle_of_text?_eq_none hText files with
    ⟨r, hHandle⟩ | ⟨e, hHandle⟩
  · rw [hHandle]
    rfl
  · rw [hHandle]
    rfl

/-
  What the handling of any message but a lookup leaves known and
  waited for.
-/
theorem agrees_handle
    {message : Json}
    (hAgrees : Agrees files horizon replica turn.server)
    (hWellFormed : message.WellFormed)
    (hMethod :
      ∀ purpose : Purpose, ¬message.HasMethod purpose.method)
    (hNamed :
      message.HasMethod "initialize" →
        ∀ d ∈ (replica.setUp message.params).registry.descriptors,
          horizon.names d)
    (hOpens :
      message.HasMethod "textDocument/didOpen" →
        ∀ document,
          Document.ofOpened message.params = .ok document →
            horizon.opens document) :
    let next := ((handle files message).runFrom turn).2.server
    Agrees files horizon (replica.take message) next ∧
      next.waiting = turn.server.waiting := by
  intro next
  cases hText : message.text? "method" with
  | some method =>
      have hHas :
          ∀ name : String,
            method = utf8 name → message.HasMethod name := by
        intro name hSame
        rw [Json.HasMethod, hText, hSame]
      have hOther : ∀ purpose : Purpose, method ≠ utf8 purpose.method :=
        fun purpose hSame => hMethod purpose (hHas _ hSame)
      have hHandle := handle_of_method hText files
      constructor
      · simp only [next, Replica.take, hText, hHandle]
        exact
          agrees_dispatch hAgrees hOther
            (fun hSame => hNamed (hHas _ hSame))
            (fun hSame => hOpens (hHas _ hSame))
            (fun hSame => hWellFormed (hHas _ hSame)) _
      · simp only [next, hHandle]
        exact waiting_dispatch hOther files _ _ turn
  | none =>
      have hSame : next = turn.server :=
        server_handle_of_text?_eq_none hText files turn
      rw [hSame]
      simpa [Replica.take, hText] using hAgrees

end Handler

end Marginalia

import Marginalia.Proofs.Server.Replica

/-
  This file says what notifications about documents come to: how
  they change what is open, and what becomes of a change of which
  only some edits can be read.

  Edits are made one by one.  If one cannot be read, those before
  it stay made, and what was tokenized is not forgotten.

  Key definitions include:
    * `Server.Stored`
    * `Edit.readable`, `Edit.fault?`
    * `Document.halfMade?`
    * `Server.Changed`
  The main statements are:
    * `Handler.runFrom_applyChanges`
    * `Handler.changed_changed`
-/

namespace Marginalia

------------------------------------------------------------
-- Open Documents
------------------------------------------------------------

namespace Server

/- What is open at a place is what was stored there last. -/
theorem document?_store
    (server : Server)
    (document : Document)
    (uri : Bytes) :
    (server.store document).document? uri =
      if uri = document.uri then some document
      else server.document? uri := by
  by_cases hSame : uri = document.uri
  · rw [if_pos hSame, hSame]
    simp [document?, store]
  · rw [if_neg hSame]
    have hDiffer : (document.uri == uri) = false := by
      simpa using fun h => hSame h.symm
    simp only [document?, store, List.find?_cons, hDiffer,
      List.find?_filter]
    congr 2
    funext d
    by_cases hKey : d.1 = uri
    · simp [hKey, hSame]
    · simp [hKey]

/- Nothing is open at a place whose document is forgotten. -/
theorem document?_discard
    (server : Server)
    (uri other : Bytes) :
    (server.discard uri).document? other =
      if other = uri then none else server.document? other := by
  simp only [document?, discard, List.find?_filter]
  by_cases hSame : other = uri
  · rw [if_pos hSame, hSame]
    simp
  · rw [if_neg hSame]
    congr 2
    funext d
    by_cases hKey : d.1 = other
    · simp [hKey, hSame]
    · simp [hKey]

/- Forgetting what was tokenized closes nothing. -/
theorem document?_forgetAt
    (server : Server)
    (uri other : Bytes) :
    (server.forgetAt uri).document? other = server.document? other := by
  unfold forgetAt
  cases server.document? uri <;> rfl

variable {server next : Server}

/- What is open at a place became this document; nothing else changed. -/
structure Stored
    (uri : Bytes)
    (document : Document)
    (server next : Server) : Prop where
  documents_eq :
    ∀ other,
      next.document? other =
        if other = uri then some document else server.document? other
  defaults_eq : next.defaults = server.defaults
  service_eq : next.service = server.service

/- What is open at a place stays there if nothing changes. -/
theorem stored_of_open
    {uri : Bytes}
    {document : Document}
    (hOpen : server.document? uri = some document) :
    Stored uri document server server := by
  refine ⟨?_, rfl, rfl⟩
  intro other
  by_cases hSame : other = uri
  · rw [if_pos hSame, hSame]
    exact hOpen
  · rw [if_neg hSame]

/- A document is stored at its place. -/
theorem stored_store
    (server : Server)
    (document : Document) :
    Stored document.uri document server (server.store document) :=
  ⟨document?_store server document, rfl, rfl⟩

/- Of two documents at a place the later one stays. -/
theorem stored_trans
    {uri : Bytes}
    {first second : Document}
    {last : Server}
    (hFirst : Stored uri first server next)
    (hSecond : Stored uri second next last) :
    Stored uri second server last := by
  refine ⟨?_, ?_, ?_⟩
  · intro other
    rw [hSecond.documents_eq, hFirst.documents_eq]
    by_cases hSame : other = uri
    · simp [hSame]
    · simp [hSame]
  · exact hSecond.defaults_eq.trans hFirst.defaults_eq
  · exact hSecond.service_eq.trans hFirst.service_eq

end Server

------------------------------------------------------------
-- Edits
------------------------------------------------------------

/- An edit leaves a document at its place. -/
theorem Edit.uri_apply
    (edit : Edit)
    (version : Int)
    (document : Document) :
    (edit.apply version document).uri = document.uri := by
  unfold Edit.apply
  split <;> rfl

/- An edit leaves a document in its language. -/
theorem Edit.languageId_apply
    (edit : Edit)
    (version : Int)
    (document : Document) :
    (edit.apply version document).languageId =
      document.languageId := by
  unfold Edit.apply
  split <;> rfl

/- Edits leave a document at its place and in its language. -/
theorem Document.sameKey_edited
    (version : Int)
    (edits : List Edit) :
    ∀ document : Document,
      (document.edited version edits).uri = document.uri ∧
        (document.edited version edits).languageId =
          document.languageId := by
  induction edits with
  | nil =>
      intro document
      exact ⟨rfl, rfl⟩
  | cons edit edits ih =>
      intro document
      rcases ih (edit.apply version document) with ⟨hUri, hLanguage⟩
      constructor
      · exact hUri.trans (edit.uri_apply version document)
      · exact hLanguage.trans (edit.languageId_apply version document)

/- Edits give a document the version that they make. -/
theorem Document.version_edited
    (version : Int)
    (edits : List Edit)
    (hEdits : edits ≠ []) :
    ∀ document : Document,
      (document.edited version edits).version = version := by
  induction edits with
  | nil => exact absurd rfl hEdits
  | cons edit edits ih =>
      intro document
      cases edits with
      | nil =>
          change (edit.apply version document).version = version
          unfold Edit.apply
          split <;> rfl
      | cons later edits =>
          exact ih (by simp) (edit.apply version document)

namespace Edit

/- The edits before the first change that cannot be read. -/
def readable : List Json → List Edit
| [] => []
| change :: changes =>
    match ofJson change with
    | .ok edit => edit :: readable changes
    | .error _ => []

/- Why a change cannot be read, if there is one. -/
def fault? : List Json → Option JsonError
| [] => none
| change :: changes =>
    match ofJson change with
    | .ok _ => fault? changes
    | .error e => some e

/- Changes can all be read just if none has a fault. -/
theorem mapM_ofJson
    (changes : List Json) :
    changes.mapM ofJson =
      match fault? changes with
      | none => .ok (readable changes)
      | some e => .error e := by
  induction changes with
  | nil => rfl
  | cons change changes ih =>
      rw [List.mapM_cons, ih, readable, fault?]
      cases ofJson change with
      | error e => rfl
      | ok edit => cases fault? changes <;> rfl

/- What it comes to that changes have a fault, or none. -/
def outcome : Option JsonError → Except HandlerError Unit
| none => .ok ()
| some e => .error (.json e)

end Edit

/-
  Changes are made up to the first one that cannot be read.  The
  induction is on the changes; before each of them the document
  is the one that is open at its place.
-/
theorem Handler.runFrom_applyChanges
    (version : Int)
    (changes : List Json) :
    ∀ (document : Document) (turn : Turn),
      turn.server.document? document.uri = some document →
        ∃ next,
          (applyChanges version document changes).runFrom turn =
              (Edit.outcome (Edit.fault? changes), next) ∧
            Server.Stored document.uri
              (document.edited version (Edit.readable changes))
              turn.server next.server := by
  induction changes with
  | nil =>
      intro document turn hOpen
      exact ⟨turn, rfl, Server.stored_of_open hOpen⟩
  | cons change changes ih =>
      intro document turn hOpen
      unfold applyChanges
      rw [Edit.readable, Edit.fault?]
      cases hEdit : Edit.ofJson change with
      | error e =>
          rw [read_error, throw_bind]
          exact ⟨turn, rfl, Server.stored_of_open hOpen⟩
      | ok edit =>
          let changed := edit.apply version document
          have hUri : changed.uri = document.uri :=
            edit.uri_apply version document
          have hStored := Server.stored_store turn.server changed
          have hOpenThen :
              (turn.server.store changed).document? changed.uri =
                some changed := by
            rw [hStored.documents_eq, if_pos rfl]
          rcases
              ih changed (turn.update (fun s => s.store changed))
                hOpenThen with
            ⟨next, hRun, hNext⟩
          refine ⟨next, ?_, ?_⟩
          · rw [read_ok, pure_bind]
            exact hRun
          · rw [← hUri]
            exact Server.stored_trans hStored hNext

/-
  The document that is left of a change some edits of which are
  made and then one cannot be read.
-/
def Document.halfMade?
    (params : Json)
    (document : Document) : Option Document :=
  match document.versionAfter params, params.member "contentChanges" with
  | .ok version, .ok changes =>
      let edits := Edit.readable changes.elements
      if (Edit.fault? changes.elements).isNone || edits.isEmpty then
        none
      else some (document.edited version edits)
  | _, _ => none

/- It is left of a change with a fault. -/
theorem Document.fault_of_halfMade?
    {params : Json}
    {document edited : Document}
    (hHalf : document.halfMade? params = some edited) :
    ∃ changes,
      params.member "contentChanges" = .ok changes ∧
        Edit.fault? changes.elements ≠ none := by
  unfold halfMade? at hHalf
  split at hHalf
  · next version changes hVersion hChanges =>
      refine ⟨changes, hChanges, ?_⟩
      intro hNone
      rw [hNone] at hHalf
      cases hHalf
  · cases hHalf

/- Nothing of a change is left over if all of it can be read. -/
theorem Document.halfMade?_eq_none
    {params : Json}
    (hRead :
      ∀ changes,
        params.member "contentChanges" = .ok changes →
          ∃ edits, changes.elements.mapM Edit.ofJson = .ok edits)
    (document : Document) :
    document.halfMade? params = none := by
  cases hHalf : document.halfMade? params with
  | none => rfl
  | some edited =>
      rcases fault_of_halfMade? hHalf with ⟨changes, hChanges, hFault⟩
      rcases hRead changes hChanges with ⟨edits, hEdits⟩
      rw [Edit.mapM_ofJson] at hEdits
      cases hNone : Edit.fault? changes.elements with
      | none => exact absurd hNone hFault
      | some e =>
          rw [hNone] at hEdits
          cases hEdits

/-
  It stays at its place and in its language, and has the version
  that the change makes.
-/
theorem Document.sameKey_of_halfMade?
    {params : Json}
    {document edited : Document}
    (hHalf : document.halfMade? params = some edited) :
    edited.uri = document.uri ∧
      edited.languageId = document.languageId ∧
        document.versionAfter params = .ok edited.version := by
  unfold halfMade? at hHalf
  split at hHalf
  · next version changes hVersion hChanges =>
      dsimp only at hHalf
      split at hHalf
      · cases hHalf
      · next hSome =>
          have hEdits : Edit.readable changes.elements ≠ [] := by
            intro hNil
            rw [hNil] at hSome
            simp at hSome
          have hSame : _ = edited := Option.some.inj hHalf
          rw [← hSame, Document.version_edited version _ hEdits]
          have hKey :=
            sameKey_edited version (Edit.readable changes.elements)
              document
          exact ⟨hKey.1, hKey.2, hVersion⟩
  · cases hHalf

/- A change leaves a document at its place and in its language. -/
theorem Document.sameKey_ofChanged
    {params : Json}
    {document edited : Document}
    (hEdited : document.ofChanged params = .ok edited) :
    edited.uri = document.uri ∧
      edited.languageId = document.languageId := by
  unfold ofChanged at hEdited
  cases hVersion : document.versionAfter params with
  | error e =>
      rw [hVersion] at hEdited
      cases hEdited
  | ok version =>
      cases hChanges : params.member "contentChanges" with
      | error e =>
          rw [hVersion, hChanges] at hEdited
          cases hEdited
      | ok changes =>
          cases hEdits : changes.elements.mapM Edit.ofJson with
          | error e =>
              simp only [bind, Except.bind, hVersion, hChanges,
                hEdits] at hEdited
              cases hEdited
          | ok edits =>
              simp only [bind, Except.bind, hVersion, hChanges,
                hEdits] at hEdited
              rw [← Except.ok.inj hEdited]
              exact sameKey_edited version edits document

/-
  What a change of a document comes to: nothing, if it cannot be
  read; the whole change, after which what was tokenized is
  forgotten; or a part of it, and nothing is forgotten.
-/
inductive Server.Changed
    (params : Json)
    (server next : Server) : Prop
| nothing
    (hUnread :
      ∀ uri document,
        params.documentUri = .ok uri →
          server.document? uri = some document →
            ∃ e, document.ofChanged params = .error e)
    (hDocuments : ∀ uri, next.document? uri = server.document? uri)
    (hDefaults : next.defaults = server.defaults)
    (hService : next.service = server.service)
| whole
    {uri : Bytes}
    {document edited : Document}
    {stored : Server}
    (hUri : params.documentUri = .ok uri)
    (hOpen : server.document? uri = some document)
    (hEdited : document.ofChanged params = .ok edited)
    (hStored : Stored uri edited server stored)
    (hForgotten : next = stored.forget document.languageId uri)
| half
    {uri : Bytes}
    {document edited : Document}
    (hUri : params.documentUri = .ok uri)
    (hOpen : server.document? uri = some document)
    (hHalf : document.halfMade? params = some edited)
    (hStored : Stored uri edited server next)

/- The document that a change makes, if all of it can be read. -/
theorem Document.ofChanged_of_read
    {params changes : Json}
    {document : Document}
    {version : Int}
    (hVersion : document.versionAfter params = .ok version)
    (hChanges : params.member "contentChanges" = .ok changes) :
    document.ofChanged params =
      match Edit.fault? changes.elements with
      | none =>
          .ok (document.edited version
            (Edit.readable changes.elements))
      | some e => .error e := by
  rw [ofChanged, hVersion, hChanges]
  simp only [bind, Except.bind, Edit.mapM_ofJson]
  cases Edit.fault? changes.elements <;> rfl

/- A change of an open document that cannot be read does nothing. -/
theorem Server.changed_of_error
    {params : Json}
    {server next : Server}
    {uri : Bytes}
    {document : Document}
    {e : JsonError}
    (hUri : params.documentUri = .ok uri)
    (hOpen : server.document? uri = some document)
    (hError : document.ofChanged params = .error e)
    (hDocuments : ∀ other, next.document? other = server.document? other)
    (hDefaults : next.defaults = server.defaults)
    (hService : next.service = server.service) :
    Changed params server next := by
  refine .nothing ?_ hDocuments hDefaults hService
  intro other found hRead hFound
  rw [hUri] at hRead
  rw [← Except.ok.inj hRead, hOpen] at hFound
  rw [← Option.some.inj hFound]
  exact ⟨e, hError⟩

/-
  A change whose version and list of edits can be read.  The
  cases are: no edit has a fault, the first one has, and a later
  one has.
-/
theorem Handler.changed_of_read
    {turn : Turn}
    {params changes : Json}
    {uri : Bytes}
    {document : Document}
    {version : Int}
    (hUri : params.documentUri = .ok uri)
    (hOpen : turn.server.document? uri = some document)
    (hPlace : document.uri = uri)
    (hVersion : document.versionAfter params = .ok version)
    (hChanges : params.member "contentChanges" = .ok changes) :
    Server.Changed params turn.server
      ((applyChanges version document changes.elements >>= fun _ =>
          update (fun s =>
            s.forget document.languageId uri)).runFrom
        turn).2.server := by
  let edits := Edit.readable changes.elements
  have hMade := Document.ofChanged_of_read hVersion hChanges
  have hThere :
      turn.server.document? document.uri = some document := by
    rw [hPlace]
    exact hOpen
  rcases runFrom_applyChanges version changes.elements document turn
      hThere with
    ⟨next, hRun, hStored⟩
  rw [hPlace] at hStored
  cases hFault : Edit.fault? changes.elements with
  | none =>
      rw [hFault] at hRun hMade
      rw [runFrom_bind_of_ok hRun]
      exact .whole hUri hOpen hMade hStored rfl
  | some e =>
      rw [hFault] at hRun hMade
      rw [runFrom_bind_of_error hRun]
      by_cases hEdits : edits = []
      · have hSame : document.edited version edits = document := by
          rw [hEdits]
          rfl
        have hDocuments :
            ∀ other,
              next.server.document? other =
                turn.server.document? other := by
          intro other
          rw [hStored.documents_eq, hSame]
          by_cases hOther : other = uri
          · rw [if_pos hOther, hOther, hOpen]
          · rw [if_neg hOther]
        exact
          Server.changed_of_error hUri hOpen hMade hDocuments
            hStored.defaults_eq hStored.service_eq
      · have hHalf :
            document.halfMade? params =
              some (document.edited version edits) := by
          rw [Document.halfMade?, hVersion, hChanges]
          dsimp only
          rw [hFault, if_neg]
          simpa [edits] using hEdits
        exact .half hUri hOpen hHalf hStored

/-
  Every change of a document comes to one of these.  The document
  is open at its own place.
-/
theorem Handler.changed_changed
    {turn : Turn}
    (hPlaces :
      ∀ {uri : Bytes} {document : Document},
        turn.server.document? uri = some document →
          document.uri = uri)
    (params : Json) :
    Server.Changed params turn.server
      ((changed params).runFrom turn).2.server := by
  unfold changed
  cases hUri : params.documentUri with
  | error e =>
      refine .nothing ?_ (fun _ => rfl) rfl rfl
      intro uri document hRead
      rw [hUri] at hRead
      cases hRead
  | ok uri =>
      rw [read_ok, pure_bind, runFrom_server_bind]
      cases hOpen : turn.server.document? uri with
      | none =>
          refine .nothing ?_ (fun _ => rfl) rfl rfl
          intro other document hRead hDocument
          rw [hUri] at hRead
          rw [← Except.ok.inj hRead, hOpen] at hDocument
          cases hDocument
      | some document =>
          dsimp only
          cases hVersion : document.versionAfter params with
          | error e =>
              have hError : document.ofChanged params = .error e := by
                rw [Document.ofChanged, hVersion]
                rfl
              exact
                Server.changed_of_error hUri hOpen hError
                  (fun _ => rfl) rfl rfl
          | ok version =>
              rw [read_ok, pure_bind]
              cases hChanges : params.member "contentChanges" with
              | error e =>
                  have hError :
                      document.ofChanged params = .error e := by
                    rw [Document.ofChanged, hVersion, hChanges]
                    rfl
                  exact
                    Server.changed_of_error hUri hOpen hError
                      (fun _ => rfl) rfl rfl
              | ok changes =>
                  rw [read_ok, pure_bind]
                  exact
                    changed_of_read hUri hOpen (hPlaces hOpen)
                      hVersion hChanges

end Marginalia

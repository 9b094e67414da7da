import Marginalia.Server.Fields
import Marginalia.Server.State

/-
  This file handles the notifications by which a client keeps
  the server's documents in step with its own.

  Key definitions include:
    * `Json.documentUri`
    * `Document.ofOpened`
    * `Edit`, `Edit.ofJson`, `Edit.apply`
    * `Server.forget`, `Server.forgetAt`
    * `Handler.opened`
    * `Handler.changed`
    * `Handler.closed`
-/

namespace Marginalia

------------------------------------------------------------
-- Parts of Notifications
------------------------------------------------------------

/- The place of the document that a message is about. -/
def Json.documentUri (params : Json) : Except JsonError Bytes := do
  let item ← params.member "textDocument"
  (← item.member "uri").asText

/- The document that a client opens. -/
def Document.ofOpened (params : Json) : Except JsonError Document := do
  let item ← params.member "textDocument"
  let uri ← (← item.member "uri").asText
  let text ← (← item.member "text").asText
  let languageId ← item.memberOr "languageId" Json.asText []
  let version ← item.memberOr "version" Json.asWord 0
  return ⟨uri, languageId, version, text⟩

/-
  The version that a change makes.  Without a version of its own
  it makes the one after that of the document.
-/
def Document.versionAfter
    (document : Document)
    (params : Json) : Except JsonError Int := do
  let item ← params.member "textDocument"
  item.memberOr "version" Json.asWord
    (Word.signed32 (document.version + 1))

/- A new text for a range of a document, or for all of it. -/
structure Edit where
  range? : Option Range
  text : Bytes
deriving DecidableEq, Repr

namespace Edit

/- The edit that a value denotes. -/
def ofJson (value : Json) : Except JsonError Edit := do
  let text ← (← value.member "text").asText
  match value.get? "range" with
  | some range => return ⟨some (← Range.ofJson range), text⟩
  | none => return ⟨none, text⟩

/- The document after an edit. -/
def apply
    (edit : Edit)
    (version : Int)
    (document : Document) : Document :=
  match edit.range? with
  | some range => document.applyChange range edit.text version
  | none => document.setText edit.text version

end Edit

------------------------------------------------------------
-- Forgetting
------------------------------------------------------------

namespace Server

/- Forget what was tokenized of a document. -/
def forget (server : Server) (languageId uri : Bytes) : Server :=
  { server with
    service := server.service.removeDocument languageId uri }

/- Forget what was tokenized of the document at a place. -/
def forgetAt (server : Server) (uri : Bytes) : Server :=
  match server.document? uri with
  | some document => server.forget document.languageId uri
  | none => server

end Server

------------------------------------------------------------
-- Handlers
------------------------------------------------------------

namespace Handler

/- A document was opened.  One that was open at its place is closed. -/
def opened (params : Json) : Handler Unit := do
  let document ← read (Document.ofOpened params)
  update (fun s =>
    ((s.forgetAt document.uri).forget document.languageId
      document.uri).store document)

/- Make edits one by one, and store the document after each. -/
def applyChanges
    (version : Int) : Document → List Json → Handler Unit
| _, [] => pure ()
| document, change :: changes => do
    let edit ← read (Edit.ofJson change)
    let next := edit.apply version document
    update (fun s => s.store next)
    applyChanges version next changes

/-
  A document was changed.  What was tokenized is forgotten once
  all changes are applied.
-/
def changed (params : Json) : Handler Unit := do
  let uri ← read params.documentUri
  match (← server).document? uri with
  | none => pure ()
  | some document => do
      let version ← read (document.versionAfter params)
      let changes ← read (params.member "contentChanges")
      applyChanges version document changes.elements
      update (fun s => s.forget document.languageId uri)

/- A document was closed. -/
def closed (params : Json) : Handler Unit := do
  let uri ← read params.documentUri
  update (fun s => (s.forgetAt uri).discard uri)

end Handler

end Marginalia

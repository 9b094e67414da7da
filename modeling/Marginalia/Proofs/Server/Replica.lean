import Marginalia.Proofs.Registry.Memory
import Marginalia.Proofs.Server.Exchanges

/-
  This file defines a server without a memory.  It knows the
  documents that are open, and what it was told by the first
  request and by changes of the configuration.  Whatever it is
  asked it finds out anew: it loads the grammar from its file,
  and tokenizes the document from its first line.

  It also says which sessions are well-formed.

  Key definitions include:
    * `Document.edited`, `Document.ofChanged`
    * `Replica`, `Replica.take`
    * `Replica.comment?`, `Replica.report`
    * `Json.WellFormed`, `Session.WellFormed`
-/

namespace Marginalia

/- The document after some edits, one by one. -/
def Document.edited
    (version : Int)
    (edits : List Edit)
    (document : Document) : Document :=
  edits.foldl (fun d edit => edit.apply version d) document

/- The document that a change makes of another one. -/
def Document.ofChanged
    (params : Json)
    (document : Document) : Except JsonError Document := do
  let version ← document.versionAfter params
  let changes ← params.member "contentChanges"
  let edits ← changes.elements.mapM Edit.ofJson
  return document.edited version edits

------------------------------------------------------------
-- What Is Known
------------------------------------------------------------

/-
  What a server without a memory knows: the open documents, and
  the grammars, settings and length limit that it was told.  Its
  registry has never loaded anything.
-/
structure Replica where
  documents : Bytes → Option Document
  defaults : List Descriptor
  registry : Registry
  settings : Settings
  maxLength : Nat

namespace Replica

/- Before any message no document is open. -/
def start
    (engine : BoundedEngine)
    (descriptors : List Descriptor) : Replica :=
  { documents := fun _ => none
    defaults := descriptors
    registry :=
      Registry.create engine descriptors Registry.defaultExcluded
    settings := Settings.default
    maxLength := defaultMaxLength }

/- Set what is open at a place. -/
def put
    (replica : Replica)
    (uri : Bytes)
    (document? : Option Document) : Replica :=
  { replica with
    documents := fun other =>
      if other = uri then document? else replica.documents other }

/- The document is the one that is open at its place. -/
def IsOpen (replica : Replica) (document : Document) : Prop :=
  replica.documents document.uri = some document

/- The first request sets everything but the open documents. -/
def setUp (replica : Replica) (params : Json) : Replica :=
  let options := (params.object? "initializationOptions").getD .null
  { replica with
    registry :=
      Registry.create replica.registry.engine
        (SetupOptions.descriptors options replica.defaults)
        (SetupOptions.excluded options)
    settings := SetupOptions.settings options
    maxLength :=
      (SetupOptions.maxLength? options).getD defaultMaxLength }

/- The configuration was changed. -/
def configure (replica : Replica) (params : Json) : Replica :=
  match
    (params.object? "settings").bind (fun s => s.object? "honyaku")
  with
  | none => replica
  | some values =>
      { replica with
        settings :=
          (Handler.updateOf values replica.settings).apply
            replica.settings
        maxLength :=
          (SetupOptions.maxLength? values).getD replica.maxLength }

/- A document was opened. -/
def opened (replica : Replica) (params : Json) : Replica :=
  match Document.ofOpened params with
  | .error _ => replica
  | .ok document => replica.put document.uri (some document)

/- A document was changed. -/
def changed (replica : Replica) (params : Json) : Replica :=
  match params.documentUri with
  | .error _ => replica
  | .ok uri =>
      match replica.documents uri with
      | none => replica
      | some document =>
          match document.ofChanged params with
          | .error _ => replica
          | .ok next => replica.put uri (some next)

/- A document was closed. -/
def closed (replica : Replica) (params : Json) : Replica :=
  match params.documentUri with
  | .error _ => replica
  | .ok uri => replica.put uri none

/- Take a message with a method up. -/
def dispatch
    (replica : Replica)
    (method : Bytes)
    (params : Json) : Replica :=
  if method = utf8 "initialize" then replica.setUp params
  else if method = utf8 "textDocument/didOpen" then
    replica.opened params
  else if method = utf8 "textDocument/didChange" then
    replica.changed params
  else if method = utf8 "textDocument/didClose" then
    replica.closed params
  else if method = utf8 "workspace/didChangeConfiguration" then
    replica.configure params
  else replica

/- Take a message up.  Looking comments up changes nothing. -/
def take (replica : Replica) (message : Json) : Replica :=
  match message.text? "method" with
  | none => replica
  | some method => replica.dispatch method message.params

/- What is known after some exchanges, the latest of which is first. -/
def after
    (engine : BoundedEngine)
    (descriptors : List Descriptor)
    (exchanges : List Exchange) : Replica :=
  exchanges.foldr (fun exchange replica =>
    replica.take exchange.message) (start engine descriptors)

------------------------------------------------------------
-- What Is Answered
------------------------------------------------------------

/- Look the comment up in a document that is tokenized for this. -/
def lookUp
    (replica : Replica)
    (document : Document)
    (grammar : Grammar)
    (position : Position) : CommentLookup :=
  let fresh :=
    TokenizedDocument.create grammar document replica.maxLength
  (TokenizedDocument.answer
    (CommentLookup.compute fresh.lines replica.settings.merge
      position) fresh).1

/- The selection in the answers that were taken for a message. -/
def selectionIn
    (answers : List Json) : Except JsonError (Option CommentBlock) :=
  match answers with
  | [] => return none
  | message :: _ => Selection.ofResult? (Turn.resultOf? message)

/-
  The comment at a position.  There is none if no document is
  open at the place or its language has no grammar.  A selection
  with a text counts before what the document says.
-/
def comment?
    (files : Files)
    (replica : Replica)
    (params : Json)
    (answers : List Json) : Except JsonError (Option CommentBlock) := do
  let uri ← params.documentUri
  match replica.documents uri with
  | none => pure none
  | some document => do
      let position ← params.documentPosition
      match replica.registry.held files document.languageId with
      | none => pure none
      | some grammar => do
          let selection? ← selectionIn answers
          pure
            ((Service.ofSelection? selection?).or
              (replica.lookUp document grammar position).block?)

/- The result that reports a comment, or that there is none. -/
def resultOf : Option CommentBlock → Json
| none => .null
| some block => block.toJson

/-
  What is sent for a message that asks for the comment at a
  position: the comment, or a refusal if a part of the message or
  of the selection cannot be read.
-/
def report
    (files : Files)
    (replica : Replica)
    (message : Json)
    (answers : List Json) : List Json :=
  match replica.comment? files message.params answers with
  | .ok block? => (Recipient.ofMessage message).reply (resultOf block?)
  | .error e => (Recipient.ofMessage message).refusal (.json e)

end Replica

------------------------------------------------------------
-- Well-Formed Sessions
------------------------------------------------------------

/- The method that asks for a lookup of this purpose. -/
def Purpose.method : Purpose → String
| .hover => "textDocument/hover"
| .report => "honyaku/commentAtPosition"

namespace Json

/- The message has this method. -/
def HasMethod (message : Json) (method : String) : Prop :=
  message.text? "method" = some (utf8 method)

/- The message asks for a lookup. -/
def isLookup (message : Json) : Bool :=
  message.text? "method" == some (utf8 Purpose.hover.method) ||
    message.text? "method" == some (utf8 Purpose.report.method)

/- The message asks for the comment at a position. -/
def IsReport (message : Json) : Prop :=
  message.HasMethod Purpose.report.method

/- If the message changes a document, all its changes can be read. -/
def WellFormed (message : Json) : Prop :=
  message.HasMethod "textDocument/didChange" →
    ∀ changes,
      message.params.member "contentChanges" = .ok changes →
        ∃ edits, changes.elements.mapM Edit.ofJson = .ok edits

end Json

/- A message that asks for a lookup is looked up. -/
theorem Handler.handle_of_lookUp
    {message : Json}
    {purpose : Purpose}
    (hMethod : message.HasMethod purpose.method)
    (files : Files) :
    handle files message =
      lookUp files (Recipient.ofMessage message) purpose
        message.params := by
  rw [handle_of_method hMethod]
  cases purpose <;> rfl

/- What a session may open, and the grammars that it may name. -/
structure Horizon where
  opens : Document → Prop
  names : Descriptor → Prop

/-
  Documents that may be opened have different keys unless their
  language and their place are the same.
-/
def Horizon.TellsApart (horizon : Horizon) : Prop :=
  ∀ a b,
    horizon.opens a →
      horizon.opens b →
        ParseCache.keyOf a = ParseCache.keyOf b →
          a.languageId = b.languageId ∧ a.uri = b.uri

/- The grammars that may be named can be loaded. -/
def Horizon.Loads
    (horizon : Horizon)
    (engine : BoundedEngine)
    (files : Files) : Prop :=
  ∀ d, horizon.names d → Registry.Loads engine files d

namespace Session

/-
  What a session may open is what some message opens.  It may
  name the grammars that it starts with, and those that some
  message sets the server up with.
-/
def horizon
    (descriptors : List Descriptor)
    (incoming : List Incoming) : Horizon :=
  { opens := fun document =>
      ∃ message,
        .message message ∈ incoming ∧
          message.HasMethod "textDocument/didOpen" ∧
            Document.ofOpened message.params = .ok document
    names := fun d =>
      d ∈ descriptors ∨
        ∃ message,
          .message message ∈ incoming ∧
            message.HasMethod "initialize" ∧
              d ∈ SetupOptions.descriptors
                ((message.params.object?
                  "initializationOptions").getD .null)
                descriptors }

/-
  A session is well-formed if all that arrives can be read, all
  messages are well-formed, documents that are opened have
  different keys unless language and place are the same, and all
  grammars that are named can be loaded.
-/
structure WellFormed
    (engine : BoundedEngine)
    (files : Files)
    (descriptors : List Descriptor)
    (incoming : List Incoming) : Prop where
  held : Held incoming
  messages :
    ∀ message, .message message ∈ incoming → message.WellFormed
  keys : (horizon descriptors incoming).TellsApart
  loads : (horizon descriptors incoming).Loads engine files

end Session

end Marginalia

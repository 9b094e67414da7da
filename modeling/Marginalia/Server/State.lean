import Marginalia.Json.Printer
import Marginalia.Service
import Marginalia.Server.Incoming
import Marginalia.Gloss

/-
  This file defines the state of the server between two
  messages, what can be observed of it, and how a message may
  fail.

  The server may ask its client something in the middle of
  handling a message.  It then waits, and messages that arrive
  meanwhile are put in a queue.

  Key definitions include:
    * `Purpose`, `Recipient`, `Inquiry`, `Waiting`
    * `Server`, `Server.create`
    * `Event`, `Turn`
    * `HandlerError`, `Handler`, `Handler.runFrom`
    * `Handler.send`, `Handler.ask`, `Handler.wait`
-/

namespace Marginalia

------------------------------------------------------------
-- Waiting
------------------------------------------------------------

/- What a lookup is for: to show a gloss, or to report the comment. -/
inductive Purpose where
| hover
| report
deriving DecidableEq, Repr

/- Whom to answer: the `id` of a message, if it has one. -/
structure Recipient where
  id? : Option Json
deriving Repr, Inhabited

namespace Recipient

/- The sender of a message. -/
def ofMessage (message : Json) : Recipient :=
  ⟨message.get? "id"⟩

/- The `id` of an answer; without one it is null. -/
def id (recipient : Recipient) : Json :=
  recipient.id?.getD .null

end Recipient

/- A lookup in progress: whom it is for, and what is looked up. -/
structure Inquiry where
  recipient : Recipient
  purpose : Purpose
  document : Document
  position : Position
  grammar : LoadedGrammar

/- What the server waits for: a selection, or the gloss of a comment. -/
inductive Waiting where
| selection (request : Bytes) (inquiry : Inquiry)
| gloss
    (request : Bytes)
    (recipient : Recipient)
    (block : CommentBlock)

namespace Waiting

/- The `id` of the request that was sent. -/
def request : Waiting → Bytes
| .selection request _ => request
| .gloss request _ _ => request

/- Whom the message in progress is from. -/
def recipient : Waiting → Recipient
| .selection _ inquiry => inquiry.recipient
| .gloss _ recipient _ => recipient

end Waiting

------------------------------------------------------------
-- The Server
------------------------------------------------------------

/- The state of the server. -/
structure Server where
  documents : List (Bytes × Document)
  defaults : List Descriptor
  service : Service
  asksSelection : Bool
  asksGloss : Bool
  waiting : Option Waiting
  queue : List Json
  nextRequest : Int
  inputClosed : Bool
  shutdown : Bool
  exited : Bool
  crashed : Bool

namespace Server

/-
  A server that has handled nothing, with the engine of its
  grammars and the grammars it starts from.
-/
def create
    (engine : BoundedEngine)
    (descriptors : List Descriptor) : Server :=
  { documents := []
    defaults := descriptors
    service :=
      Service.create
        (Registry.create engine descriptors Registry.defaultExcluded)
        Settings.default
    asksSelection := false
    asksGloss := false
    waiting := none
    queue := []
    nextRequest := 1
    inputClosed := false
    shutdown := false
    exited := false
    crashed := false }

/- The open document of a place. -/
def document? (server : Server) (uri : Bytes) : Option Document :=
  (server.documents.find? (fun d => d.1 == uri)).map Prod.snd

/- Put a document at its place. -/
def store (server : Server) (document : Document) : Server :=
  { server with
    documents :=
      (document.uri, document) ::
        server.documents.filter (fun d => d.1 != document.uri) }

/- Forget the document of a place. -/
def discard (server : Server) (uri : Bytes) : Server :=
  { server with
    documents := server.documents.filter (fun d => d.1 != uri) }

/- No more messages are handled. -/
def isOver (server : Server) : Bool :=
  server.exited || server.crashed

/- The exit code: zero after a shutdown, one otherwise. -/
def exitCode (server : Server) : Nat :=
  if server.shutdown then 0 else 1

end Server

------------------------------------------------------------
-- Events
------------------------------------------------------------

/-
  What can be observed: a message was taken up, a message was
  taken as the answer that was waited for, a frame was sent, or
  a remark was made.
-/
inductive Event where
| handled (message : Json)
| answered (message : Json)
| sent (frame : Json)
| remarked (remark : Diagnostic)
deriving Repr

namespace Event

/- The frame of an event, if one was sent. -/
def frame? : Event → Option Json
| .sent frame => some frame
| _ => none

/- The remark of an event, if one was made. -/
def remark? : Event → Option Diagnostic
| .remarked remark => some remark
| _ => none

/- The message of an event, if one was taken up. -/
def message? : Event → Option Json
| .handled message => some message
| _ => none

/- The answer of an event, if one was taken. -/
def answer? : Event → Option Json
| .answered message => some message
| _ => none

end Event

/- The state of the server, and the events so far with the latest first. -/
structure Turn where
  server : Server
  events : List Event

namespace Turn

/- Add an event. -/
def note (turn : Turn) (event : Event) : Turn :=
  { turn with events := event :: turn.events }

/- Change the server. -/
def update (turn : Turn) (f : Server → Server) : Turn :=
  { turn with server := f turn.server }

end Turn

------------------------------------------------------------
-- Handlers
------------------------------------------------------------

/-
  Why the handling of a message fails: a part of it cannot be
  read, a grammar or a document cannot be used, an answer is not
  UTF-8, or a frame cannot be read while an answer is waited for.
-/
inductive HandlerError where
| json (error : JsonError)
| table (error : TableError)
| tokenize (error : TokenizeError)
| unprintable
| unreadable (fault : ReadFault)
deriving DecidableEq, Repr

namespace HandlerError

/- The wording of an error. -/
def message : HandlerError → String
| json error => error.message
| table .captureNumber => "capture number out of range"
| tokenize error => error.message
| unprintable => "text is not UTF-8"
| unreadable .overlong => "message body too long"
| unreadable .overflow => "number out of range"

end HandlerError

/-
  The handling of a message.  What was done before a failure
  stays done.
-/
abbrev Handler (α : Type) :=
  ExceptT HandlerError (StateM Turn) α

namespace Handler

/- What a handler comes to from a turn. -/
def runFrom
    {α : Type}
    (h : Handler α)
    (turn : Turn) : Except HandlerError α × Turn :=
  h.run.run turn

/- The state of the server. -/
def server : Handler Server := do
  return (← get).server

/- Change the server. -/
def update (f : Server → Server) : Handler Unit :=
  modify (fun turn => turn.update f)

/- Make a remark. -/
def remark (r : Diagnostic) : Handler Unit :=
  modify (fun turn => turn.note (.remarked r))

/- Read a required part of a message. -/
def read {α : Type} (result : Except JsonError α) : Handler α :=
  match result with
  | .ok value => pure value
  | .error e => throw (.json e)

/- Send a frame; it must be UTF-8 throughout. -/
def send (frame : Json) : Handler Unit :=
  if frame.isPrintable then
    modify (fun turn => turn.note (.sent frame))
  else throw .unprintable

/- The frame of an answer. -/
def resultFrame (recipient : Recipient) (result : Json) : Json :=
  Json.record
    [ ("jsonrpc", Json.ofString "2.0"),
      ("id", recipient.id),
      ("result", result) ]

/- The frame of a refusal. -/
def errorFrame (id : Json) (code : Int) (message : Bytes) : Json :=
  Json.record
    [ ("jsonrpc", Json.ofString "2.0"),
      ("id", id),
      ("error",
        Json.record
          [("code", .int code), ("message", .text message)]) ]

/- Answer a message. -/
def answer (recipient : Recipient) (result : Json) : Handler Unit :=
  send (resultFrame recipient result)

/- The `id` of the request of a number. -/
def requestId (n : Int) : Bytes :=
  utf8 "honyaku-" ++ Decimal.ofInt n

/- The frame of a request. -/
def requestFrame (id : Bytes) (request : Request) : Json :=
  Json.record
    [ ("jsonrpc", Json.ofString "2.0"),
      ("id", .text id),
      ("method", .text request.method),
      ("params", request.params) ]

/- Wait for an answer. -/
def wait (waiting : Waiting) : Handler Unit :=
  update (fun s => { s with waiting := some waiting })

/-
  Send a request to the client, and return the `id` of the answer.
  Requests are numbered within 32 bits.
-/
def ask (request : Request) : Handler Bytes := do
  let n := (← server).nextRequest
  update (fun s => { s with nextRequest := Word.signed32 (n + 1) })
  send (requestFrame (requestId n) request)
  pure (requestId n)

end Handler

end Marginalia

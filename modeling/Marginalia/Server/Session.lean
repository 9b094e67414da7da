import Marginalia.Server.Incoming
import Marginalia.Server.Inquiry
import Marginalia.Server.Setup

/-
  This file runs a session: messages are handled in the order in
  which they arrive, except that the answer to a question of the
  server goes to whoever waits for it.

  A message that is refused, or whose handling fails, is told so
  if it has an `id`.

  Key definitions include:
    * `Turn.attempt`
    * `Turn.handle`
    * `Waiting.isAnsweredBy`, `Turn.answerOf`
    * `Turn.receive`, `Turn.finish`
    * `Session.run`
-/

namespace Marginalia

------------------------------------------------------------
-- Handling a Message
------------------------------------------------------------

/- The parameters of a message; without any, an empty object. -/
def Json.params (message : Json) : Json :=
  (message.get? "params").getD (.object [])

namespace Handler

/- The code of a refusal because the method is not known. -/
def methodNotFound : Int :=
  -32601

/- The code of a failure. -/
def internalError : Int :=
  -32603

/- Refuse a request whose method is not known; a notification is ignored. -/
def refuse (recipient : Recipient) (method : Bytes) : Handler Unit :=
  match recipient.id? with
  | none => pure ()
  | some id =>
      send
        (errorFrame id methodNotFound
          (utf8 "Method not found: " ++ method))

/- Handle a message with a method. -/
def dispatch
    (files : Files)
    (recipient : Recipient)
    (method : Bytes)
    (params : Json) : Handler Unit :=
  if method = utf8 "initialize" then setUp recipient params
  else if method = utf8 "initialized" then pure ()
  else if method = utf8 "textDocument/didOpen" then opened params
  else if method = utf8 "textDocument/didChange" then changed params
  else if method = utf8 "textDocument/didClose" then closed params
  else if method = utf8 "workspace/didChangeConfiguration" then
    configure params
  else if method = utf8 "textDocument/hover" then
    lookUp files recipient .hover params
  else if method = utf8 "honyaku/commentAtPosition" then
    lookUp files recipient .report params
  else if method = utf8 "shutdown" then do
    update (fun s => { s with shutdown := true })
    answer recipient .null
  else if method = utf8 "exit" then
    update (fun s => { s with exited := true })
  else refuse recipient method

/- Handle a message. -/
def handle (files : Files) (message : Json) : Handler Unit :=
  match message.get? "method" with
  | none => remark (.unexpectedResponse message.compact)
  | some value => do
      let method ← read value.asText
      dispatch files (Recipient.ofMessage message) method
        message.params

end Handler

namespace Turn

/- Tell whom a message is from that its handling failed. -/
def refuse
    (turn : Turn)
    (recipient : Recipient)
    (e : HandlerError) : Turn :=
  match recipient.id? with
  | none => turn
  | some id =>
      turn.note
        (.sent
          (Handler.errorFrame id Handler.internalError
            (utf8 e.message)))

/- Try a handler; if it fails, tell whom it is for. -/
def attempt
    (turn : Turn)
    (recipient : Recipient)
    (h : Handler Unit) : Turn :=
  match h.runFrom turn with
  | (.ok (), turn) => turn
  | (.error e, turn) => turn.refuse recipient e

/-
  Go on without an answer if the server waits for one although
  nothing more arrives.
-/
def giveUp (turn : Turn) : Turn :=
  match turn.server.inputClosed, turn.server.waiting with
  | true, some waiting =>
      turn.attempt waiting.recipient (Handler.resume waiting none)
  | _, _ => turn

/-
  Take a message up.  A lookup asks at most twice, so giving up
  twice leaves nothing to wait for.
-/
def handle (files : Files) (turn : Turn) (message : Json) : Turn :=
  (((turn.note (.handled message)).attempt
    (Recipient.ofMessage message)
    (Handler.handle files message)).giveUp).giveUp

/- Take up messages from the queue until one has to wait. -/
def drain (files : Files) : List Json → Turn → Turn
| [], turn => turn.update (fun s => { s with queue := [] })
| message :: rest, turn =>
    if turn.server.waiting.isSome || turn.server.isOver then
      turn.update (fun s => { s with queue := message :: rest })
    else drain files rest (turn.handle files message)

------------------------------------------------------------
-- Arrivals
------------------------------------------------------------

end Turn

/- The message is the answer that is waited for. -/
def Waiting.isAnsweredBy (waiting : Waiting) (message : Json) : Bool :=
  (message.get? "method").isNone &&
    message.text? "id" == some waiting.request

/- The method that was asked for. -/
def Waiting.method : Waiting → Bytes
| .selection _ _ => utf8 "honyaku/selectionContains"
| .gloss _ _ _ => Gloss.method

namespace Turn

/- The result in an answer; a failure of the client gives none. -/
def resultOf? (message : Json) : Option Json :=
  match message.get? "error" with
  | some _ => none
  | none => some ((message.get? "result").getD .null)

/- Remark on a failure of the client. -/
def noteFailure
    (turn : Turn)
    (waiting : Waiting)
    (message : Json) : Turn :=
  match message.get? "error" with
  | none => turn
  | some error =>
      turn.note (.remarked (.failedRequest waiting.method error.compact))

/- Go on with the result that was waited for, then with the queue. -/
def goOn
    (files : Files)
    (turn : Turn)
    (waiting : Waiting)
    (h : Handler Unit) : Turn :=
  let turn := (turn.attempt waiting.recipient h).giveUp.giveUp
  drain files turn.server.queue turn

/- Take in what arrives. -/
def receive (files : Files) (turn : Turn) (incoming : Incoming) : Turn :=
  if turn.server.isOver then turn
  else
    match incoming, turn.server.waiting with
    | .message message, none => turn.handle files message
    | .message message, some waiting =>
        if waiting.isAnsweredBy message then
          let turn := turn.note (.answered message)
          (turn.noteFailure waiting message).goOn files waiting
            (Handler.resume waiting (resultOf? message))
        else
          turn.update (fun s => { s with queue := s.queue ++ [message] })
    | .garbled, _ => turn.note (.remarked .malformedMessage)
    | .faultyLength, _ => turn.note (.remarked .malformedLength)
    | .unreadable _, none =>
        turn.update (fun s => { s with crashed := true })
    | .unreadable fault, some waiting =>
        turn.goOn files waiting (do
          Handler.update (fun s => { s with waiting := none })
          throw (.unreadable fault))

/- Nothing more arrives: go on without answers, to the end of the queue. -/
def finish (files : Files) (turn : Turn) : Turn :=
  if turn.server.isOver then turn
  else
    let turn :=
      (turn.update (fun s => { s with inputClosed := true })).giveUp.giveUp
    drain files turn.server.queue turn

end Turn

------------------------------------------------------------
-- Sessions
------------------------------------------------------------

namespace Session

/- Run a server on all that arrives, up to the end. -/
def run
    (files : Files)
    (server : Server)
    (incoming : List Incoming) : Turn :=
  (incoming.foldl (Turn.receive files) ⟨server, []⟩).finish files

/- The frames that were sent, in order. -/
def frames (turn : Turn) : List Json :=
  turn.events.reverse.filterMap Event.frame?

/- The remarks that were made, in order. -/
def remarks (turn : Turn) : List Diagnostic :=
  turn.events.reverse.filterMap Event.remark?

end Session

end Marginalia

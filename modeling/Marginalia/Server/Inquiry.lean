import Marginalia.Server.Documents

/-
  This file handles the requests for the comment at a position.
  A lookup may ask the client for its selection, and a hover for
  a gloss; in between, the server waits.

  Key definitions include:
    * `Json.documentPosition`, `Selection.ofResult?`
    * `Handler.lookUp`
    * `Handler.deliver`
    * `Handler.proceed`, `Handler.resume`
-/

namespace Marginalia

------------------------------------------------------------
-- Parts of Messages
------------------------------------------------------------

/- The position that a message is about. -/
def Json.documentPosition (params : Json) : Except JsonError Position := do
  Position.ofJson (← params.member "position")

/-
  The comment that a selection stands for.  Without a range and
  a text it stands for none.
-/
def Selection.ofResult?
    (result? : Option Json) : Except JsonError (Option CommentBlock) :=
  match result? with
  | none => return none
  | some result =>
      match result.get? "range", result.text? "comment" with
      | some value, some comment => do
          let range ← Range.ofJson value
          return some
            { range := range
              comment := comment
              isLineComment := false
              humanize := false
              scope := [] }
      | _, _ => return none

namespace Handler

------------------------------------------------------------
-- Answers
------------------------------------------------------------

/- What a hover says when there is no gloss. -/
def failure : Bytes :=
  utf8 "Translation failed"

/- What a hover says. -/
def hoverText
    (block : CommentBlock)
    (gloss? : Option Bytes) : Bytes :=
  let value := gloss?.getD failure
  if block.humanize then
    block.spelled ++ utf8 " => " ++ value
  else value

/- The answer to a hover. -/
def hoverResult
    (block : CommentBlock)
    (gloss? : Option Bytes) : Json :=
  Json.record
    [ ("contents",
        Json.record
          [ ("kind", Json.ofString "plaintext"),
            ("value", .text (hoverText block gloss?)) ]),
      ("range", block.range.toJson) ]

/- Ask for a gloss and wait for it, if the client gives any. -/
def deliverHover (recipient : Recipient) (block : CommentBlock) :
    Handler Unit := do
  let s ← server
  let request? :=
    if s.asksGloss then
      Gloss.request? block.spelled s.service.settings.target
    else none
  match request? with
  | none => answer recipient (hoverResult block none)
  | some request => do
      let id ← ask request
      wait (.gloss id recipient block)

/- Deliver what a lookup found. -/
def deliver
    (recipient : Recipient)
    (purpose : Purpose)
    (block? : Option CommentBlock) : Handler Unit :=
  match block?, purpose with
  | none, _ => answer recipient .null
  | some block, .report => answer recipient block.toJson
  | some block, .hover => deliverHover recipient block

------------------------------------------------------------
-- Lookups
------------------------------------------------------------

/- The request for the selection around a position. -/
def selectionRequest (document : Document) (position : Position) :
    Request :=
  { method := utf8 "honyaku/selectionContains"
    params :=
      Json.record
        [ ("textDocument",
            Json.record [("uri", .text document.uri)]),
          ("position", position.toJson) ] }

/- The grammar of a language. -/
def grammarFor (files : Files) (language : Bytes) :
    Handler (Option LoadedGrammar) := do
  let (result, service, remarks) :=
    (← server).service.grammarFor files language
  update (fun s => { s with service := service })
  remarks.forM remark
  match result with
  | .ok grammar? => pure grammar?
  | .error e => throw (.table e)

/- Look the comment up in the document, and deliver it. -/
def compute (inquiry : Inquiry) : Handler Unit := do
  let (result, service) :=
    (← server).service.compute inquiry.document inquiry.grammar
      inquiry.position
  update (fun s => { s with service := service })
  match result with
  | .error e => throw (.tokenize e)
  | .ok lookup => do
      remark (Service.remark inquiry.document inquiry.position lookup)
      deliver inquiry.recipient inquiry.purpose lookup.block?

/-
  Look up the comment at a position, after asking for the
  selection if the client can be asked.
-/
def lookUp
    (files : Files)
    (recipient : Recipient)
    (purpose : Purpose)
    (params : Json) : Handler Unit := do
  let uri ← read params.documentUri
  match (← server).document? uri with
  | none => deliver recipient purpose none
  | some document => do
      let position ← read params.documentPosition
      match ← grammarFor files document.languageId with
      | none => deliver recipient purpose none
      | some grammar => do
          let inquiry : Inquiry :=
            { recipient := recipient
              purpose := purpose
              document := document
              position := position
              grammar := grammar }
          if (← server).asksSelection then
            let id ← ask (selectionRequest document position)
            wait (.selection id inquiry)
          else compute inquiry

------------------------------------------------------------
-- Going On
------------------------------------------------------------

/- The remark on a gloss that cannot be used. -/
def glossRemark : Option Json → Option Diagnostic
| none => some .noGloss
| some result =>
    match Gloss.ofResult? result with
    | some _ => none
    | none => some (.unexpectedGloss result.compact)

/- Use the result that was waited for; there may be none. -/
def proceed (result? : Option Json) : Waiting → Handler Unit
| .selection _ inquiry => do
    match Service.ofSelection? (← read (Selection.ofResult? result?)) with
    | some block =>
        deliver inquiry.recipient inquiry.purpose (some block)
    | none => compute inquiry
| .gloss _ recipient block => do
    (glossRemark result?).toList.forM remark
    answer recipient
      (hoverResult block (result?.bind Gloss.ofResult?))

/- Stop waiting, and go on with the result or without one. -/
def resume (waiting : Waiting) (result? : Option Json) :
    Handler Unit := do
  update (fun s => { s with waiting := none })
  proceed result? waiting

end Handler

end Marginalia

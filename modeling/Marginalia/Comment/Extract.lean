import Marginalia.Comment.Extent
import Marginalia.Comment.Identifier
import Marginalia.Comment.Marker

/-
  This file takes the text of a comment out of a document: the
  lines of the span without marks, trimmed, and joined with one
  space.

  Where the grammar says which tokens are marks, they give way
  to spaces.  Elsewhere the marks are recognised by their text.

  Key definitions include:
    * `LinePart`
    * `Extract.part`, `Extract.parts`
    * `Extract.strip`
    * `Extract.text?`
    * `ExtractedText`, `ExtractedText.ofSpan`
-/

namespace Marginalia

/-
  What a span holds of one line: the bytes as they are, the
  bytes with spaces for marks, and whether there was a mark.
-/
structure LinePart where
  raw : Bytes
  content : Bytes
  marked : Bool
deriving DecidableEq, Repr

namespace Extract

------------------------------------------------------------
-- The Lines of a Span
------------------------------------------------------------

/- The columns of a line that belong to a span. -/
def columns
    (span : CommentSpan)
    (line : Nat)
    (text : Bytes) : Nat × Nat :=
  (if line = span.startLine then min span.startColumn text.length else 0,
    if line = span.stopLine then min span.stopColumn text.length
    else text.length)

/- What a token adds to the content of a line between two columns. -/
def tokenContent
    (text : Bytes)
    (start stop : Nat)
    (token : Token) : Bytes :=
  let a := max token.start start
  let b := min token.stop stop
  if token.isMark then List.replicate (b - a) Ascii.space
  else text.slice a b

/- The token is a mark that the columns meet. -/
def meetsMark (start stop : Nat) (token : Token) : Bool :=
  token.isMark && max token.start start < min token.stop stop

/- What a span holds of a line. -/
def part
    (span : CommentSpan)
    (line : Nat)
    (text : Bytes)
    (tokens : List Token) : LinePart :=
  let (start, stop) := columns span line text
  { raw := text.slice start stop
    content := tokens.flatMap (tokenContent text start stop)
    marked := tokens.any (meetsMark start stop) }

/- What a span holds of the next `remaining` lines. -/
def parts
    (lines : Array Bytes)
    (span : CommentSpan) : Nat → Nat → TokenQuery (List LinePart)
| 0, _ => pure []
| remaining + 1, line => do
    let tokens ← TokenQuery.tokensOf line
    let rest ← parts lines span remaining (line + 1)
    pure (part span line (lines.getD line []) tokens :: rest)

/- The number of lines of the document that a span holds. -/
def lineCount (lines : Array Bytes) (span : CommentSpan) : Nat :=
  min (span.stopLine + 1) lines.size - span.startLine

------------------------------------------------------------
-- The Text of a Span
------------------------------------------------------------

/- Change the last of some lines. -/
def onLast (f : Bytes → Bytes) : List Bytes → List Bytes
| [] => []
| [line] => [f line]
| line :: next :: lines => line :: onLast f (next :: lines)

/- The lines of a comment without marks. -/
def strip (scope : Scope) (parts : List LinePart) : List Bytes :=
  if parts.any LinePart.marked then
    let contents := parts.map LinePart.content
    if scope.isLineComment then contents
    else onLast Marker.stripTrailingStars (contents.map Marker.stripStar)
  else
    let raws := parts.map LinePart.raw
    if scope.isLineComment then raws.map Marker.stripLine
    else
      Bytes.splitLines
        (Marker.stripBlock (Bytes.join [Ascii.lf] raws))

/- The lines that are not blank, trimmed and joined with one space. -/
def joinLines (lines : List Bytes) : Bytes :=
  Bytes.join [Ascii.space]
    ((lines.map Bytes.trim).filter (fun line => !line.isEmpty))

/- The text of a span, if anything is left of it. -/
def text?
    (lines : Array Bytes)
    (span : CommentSpan)
    (scope : Scope) : TokenQuery (Option Bytes) := do
  let parts ←
    parts lines span (lineCount lines span) span.startLine
  let text := joinLines (strip scope parts)
  pure (if text.isEmpty then none else some text)

end Extract

------------------------------------------------------------
-- Extracted Texts
------------------------------------------------------------

/- The text of a comment, and whether it is an identifier to spell out. -/
structure ExtractedText where
  text : Bytes
  humanize : Bool
deriving DecidableEq, Repr

namespace ExtractedText

/- The text of a span. -/
def ofSpan
    (lines : Array Bytes)
    (span : CommentSpan)
    (scope : Scope) : TokenQuery (Option ExtractedText) := do
  let text? ← Extract.text? lines span scope
  pure (text?.map (fun text => ⟨text, Identifier.isIdentifier text⟩))

end ExtractedText

end Marginalia

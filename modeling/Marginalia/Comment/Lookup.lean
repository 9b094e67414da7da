import Marginalia.Comment.Extract

/-
  This file looks comments up: it finds the comment that a
  position is about, how far it reaches and what it says.

  Key definitions include:
    * `CommentBlock`, `CommentBlock.spelled`
    * `CommentLookup`
    * `MergeSettings`
    * `CommentLookup.compute`
-/

namespace Marginalia

------------------------------------------------------------
-- Results
------------------------------------------------------------

/- A comment: where it stands and what it says. -/
structure CommentBlock where
  range : Range
  comment : Bytes
  isLineComment : Bool
  humanize : Bool
  scope : Scope
deriving DecidableEq, Repr

namespace CommentBlock

/- The text of a comment; an identifier is spelled out. -/
def spelled (block : CommentBlock) : Bytes :=
  if block.humanize then Identifier.words block.comment
  else block.comment

end CommentBlock

/- The outcome of a lookup. -/
inductive CommentLookup where
| found (block : CommentBlock)
| noGrammar
| noMatch
| emptyAfterStrip
deriving DecidableEq, Repr

namespace CommentLookup

/- The comment of a lookup that found one. -/
def block? : CommentLookup → Option CommentBlock
| .found block => some block
| _ => none

/- The number by which an outcome is reported. -/
def code : CommentLookup → Nat
| .found _ => 0
| .noGrammar => 1
| .noMatch => 2
| .emptyAfterStrip => 3

end CommentLookup

------------------------------------------------------------
-- Looking Up
------------------------------------------------------------

/- Which lines are merged into one comment. -/
structure MergeSettings where
  multiLine : Bool
  indentation : Indentation
deriving DecidableEq, Repr

namespace MergeSettings

/- The policy for merging lines, if they are merged at all. -/
def policy? (settings : MergeSettings) : Option Indentation :=
  if settings.multiLine then some settings.indentation else none

end MergeSettings

namespace CommentSpan

/- The range of a span, in the columns of the editor. -/
def toRange (lines : Array Bytes) (span : CommentSpan) : Range :=
  { start :=
      ⟨span.startLine,
        Utf16.ofByteColumn (lines.getD span.startLine [])
          span.startColumn⟩
    stop :=
      ⟨span.stopLine,
        Utf16.ofByteColumn (lines.getD span.stopLine [])
          span.stopColumn⟩ }

end CommentSpan

namespace CommentLookup

/- The outcome for a comment that was found. -/
def ofText
    (lines : Array Bytes)
    (span : CommentSpan)
    (scope : Scope) : Option ExtractedText → CommentLookup
| none => .emptyAfterStrip
| some extracted =>
    let block : CommentBlock :=
      { range := span.toRange lines
        comment := extracted.text
        isLineComment := scope.isLineComment
        humanize := extracted.humanize
        scope := scope }
    if block.spelled.isEmpty then .emptyAfterStrip
    else .found block

/- Look up the comment that a position is about. -/
def compute
    (lines : Array Bytes)
    (settings : MergeSettings)
    (position : Position) : TokenQuery CommentLookup := do
  match ← CommentMatch.locate lines position with
  | none => pure .noMatch
  | some m => do
      let span ← CommentSpan.ofMatch lines m settings.policy?
      let extracted ← ExtractedText.ofSpan lines span m.scope
      pure (ofText lines span m.scope extracted)

end CommentLookup

end Marginalia

import Marginalia.Comment.Lookup
import Marginalia.Json.Basic

/-
  This file reads and writes the parts that messages have in
  common: positions, ranges and comments.

  Key definitions include:
    * `Position.toJson`, `Position.ofJson`
    * `Range.toJson`, `Range.ofJson`
    * `CommentBlock.toJson`
    * `Json.lineLength?`
    * `Json.elements`
-/

namespace Marginalia

namespace Position

/- The JSON form of a position. -/
def toJson (p : Position) : Json :=
  Json.record [("line", .int p.line), ("character", .int p.character)]

/- The position that a value denotes. -/
def ofJson (value : Json) : Except JsonError Position := do
  let line ← (← value.member "line").asWord
  let character ← (← value.member "character").asWord
  return ⟨line, character⟩

end Position

namespace Range

/- The JSON form of a range. -/
def toJson (r : Range) : Json :=
  Json.record [("start", r.start.toJson), ("end", r.stop.toJson)]

/- The range that a value denotes. -/
def ofJson (value : Json) : Except JsonError Range := do
  let start ← Position.ofJson (← value.member "start")
  let stop ← Position.ofJson (← value.member "end")
  return ⟨start, stop⟩

end Range

namespace CommentBlock

/- The JSON form of a comment. -/
def toJson (block : CommentBlock) : Json :=
  Json.record
    [ ("range", block.range.toJson),
      ("comment", .text block.comment),
      ("humanize", .bool block.humanize),
      ("translatableText", .text block.spelled),
      ("isLineComment", .bool block.isLineComment),
      ("scope", .text block.scope) ]

end CommentBlock

namespace Json

/- The length limit that a value denotes: a number that is not negative. -/
def lineLength? : Json → Option Nat
| .int n =>
    let n := Word.signed64 n
    if 0 ≤ n then some n.toNat else none
| _ => none

/-
  What a value lists: the elements of an array, the values of an
  object, nothing for null, and any other value alone.
-/
def elements : Json → List Json
| .array items => items
| .object members => members.map Prod.snd
| .null => []
| value => [value]

end Json

end Marginalia

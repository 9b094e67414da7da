import Marginalia.Pattern.Search
import Marginalia.Pattern.Literal

/-
  This file handles ends that refer to their begin: in the
  source of an end, a backslash and a digit from 1 to 9 stand
  for the text of a group of the match that opened the region.

  Key definitions include:
    * `BackReference.occurs`
    * `BackReference.groupText`
    * `BackReference.resolve`
-/

namespace Marginalia

namespace BackReference

/- The digits that name a group. -/
def isGroupDigit (b : UInt8) : Bool :=
  49 ≤ b && b ≤ 57

/- The source refers to a group. -/
def occurs : Bytes → Bool
| Ascii.backslash :: b :: rest => isGroupDigit b || occurs rest
| _ :: rest => occurs rest
| [] => false

/- The text of a group of a match; it is empty if the group took no part. -/
def groupText (line : Array UInt8) (m : Match) (number : Nat) : Bytes :=
  match m.group? number with
  | none => []
  | some span => (line.extract span.start span.stop).toList

/-
  The source with each reference replaced by a pattern for the
  text of its group.
-/
def resolve (line : Array UInt8) (m : Match) : Bytes → Bytes
| Ascii.backslash :: b :: rest =>
    if isGroupDigit b then
      Pattern.escape (groupText line m (b.toNat - 48)) ++
        resolve line m rest
    else Ascii.backslash :: b :: resolve line m rest
| b :: rest => b :: resolve line m rest
| [] => []

end BackReference

end Marginalia

import Marginalia.Text.Bytes

/-
  This file writes a text as a pattern that matches just that
  text.

  Key definitions include:
    * `Pattern.isSpecial`
    * `Pattern.escape`
-/

namespace Marginalia

namespace Pattern

/-
  The bytes with a meaning in patterns.  The space and `#` have
  one when white space may stand between the parts.
-/
def isSpecial (b : UInt8) : Bool :=
  (utf8 "\\^$.|?*+()[]\x7b\x7d# ").contains b

/- The text with a backslash before every special byte. -/
def escape : Bytes → Bytes
| [] => []
| b :: rest =>
    if isSpecial b then Ascii.backslash :: b :: escape rest
    else b :: escape rest

end Pattern

end Marginalia

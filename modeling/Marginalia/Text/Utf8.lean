import Marginalia.Text.Bytes

/-
  This file defines which byte strings are UTF-8 and how a code
  point is written in it.

  Key definitions include:
    * `Utf8.isValid`
    * `Utf8.encode`
-/

namespace Marginalia

namespace Utf8

/-
  What a lead byte asks for: the number of continuation bytes
  and the bounds of the first of them, which exclude overlong
  forms, surrogates and code points past the last one.
-/
def continuation (lead : UInt8) : Option (Nat × UInt8 × UInt8) :=
  if lead < 0x80 then some (0, 0x80, 0xBF)
  else if lead < 0xC2 then none
  else if lead < 0xE0 then some (1, 0x80, 0xBF)
  else if lead = 0xE0 then some (2, 0xA0, 0xBF)
  else if lead = 0xED then some (2, 0x80, 0x9F)
  else if lead < 0xF0 then some (2, 0x80, 0xBF)
  else if lead = 0xF0 then some (3, 0x90, 0xBF)
  else if lead < 0xF4 then some (3, 0x80, 0xBF)
  else if lead = 0xF4 then some (3, 0x80, 0x8F)
  else none

/-
  The text is UTF-8 after `owed` continuation bytes, the first
  of which lies between `low` and `high`.
-/
def isValidAfter : Nat → UInt8 → UInt8 → Bytes → Bool
| 0, _, _, [] => true
| _ + 1, _, _, [] => false
| 0, _, _, lead :: rest =>
    match continuation lead with
    | none => false
    | some (owed, low, high) => isValidAfter owed low high rest
| owed + 1, low, high, b :: rest =>
    if low ≤ b ∧ b ≤ high then
      isValidAfter owed 0x80 0xBF rest
    else
      false

/- The text is a sequence of whole UTF-8 characters. -/
def isValid (s : Bytes) : Bool :=
  isValidAfter 0 0x80 0xBF s

/- The last six bits of a number, as a continuation byte. -/
def continuationByte (n : Nat) : UInt8 :=
  (0x80 + n % 0x40).toUInt8

/- The bytes of a code point. -/
def encode (c : Nat) : Bytes :=
  if c < 0x80 then
    [c.toUInt8]
  else if c < 0x800 then
    [(0xC0 + c / 0x40).toUInt8, continuationByte c]
  else if c < 0x10000 then
    [(0xE0 + c / 0x1000).toUInt8,
      continuationByte (c / 0x40), continuationByte c]
  else
    [(0xF0 + c / 0x40000).toUInt8,
      continuationByte (c / 0x1000),
      continuationByte (c / 0x40), continuationByte c]

end Utf8

end Marginalia

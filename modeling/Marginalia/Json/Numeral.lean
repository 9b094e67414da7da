import Marginalia.Text.Decimal
import Marginalia.Word

/-
  This file defines the numbers that are read as binary64
  floating point numbers, and what becomes of them: whether a
  number is too large for the format, and the integer that is
  left when its fraction is cut off.

  A number is kept as it was written, so that its value is exact;
  rounding takes place where the value is used.

  Key definitions include:
    * `Numeral`
    * `Numeral.mantissa`, `Numeral.scale`
    * `Numeral.overflows`
    * `Numeral.wholePart`, `Numeral.toWord`
-/

namespace Marginalia

/-
  A decimal number as it was written: its sign, the digits before
  the point, the point with the digits after it, and the exponent
  with its letter.  The last two may be empty.
-/
structure Numeral where
  negative : Bool
  whole : Bytes
  fraction : Bytes
  exponent : Bytes
deriving DecidableEq, Repr

namespace Numeral

------------------------------------------------------------
-- Values
------------------------------------------------------------

/- The text of a number. -/
def source (n : Numeral) : Bytes :=
  let digits := n.whole ++ n.fraction ++ n.exponent
  if n.negative then Ascii.minus :: digits else digits

/- The number that all digits before the exponent form. -/
def mantissa (n : Numeral) : Nat :=
  Decimal.value (n.whole ++ n.fraction.drop 1)

/- The value of an exponent without its letter. -/
def exponentValue : Bytes → Int
| Ascii.minus :: digits => -(Decimal.value digits : Int)
| Ascii.plus :: digits => Decimal.value digits
| digits => Decimal.value digits

/-
  The power of ten to be taken of the mantissa: the exponent, less
  one for each digit after the point.
-/
def scale (n : Numeral) : Int :=
  exponentValue (n.exponent.drop 1) - (n.fraction.drop 1).length

------------------------------------------------------------
-- Overflow
------------------------------------------------------------

/-
  The least size that is rounded to infinity: halfway from the
  largest binary64 number to the next power of two.
-/
def limit : Nat :=
  (1 <<< 1024) - (1 <<< 970)

/-
  The number is rounded to infinity.  The first test of each case
  only keeps powers small that need not be known: the limit has
  309 digits, and a mantissa has more bits than digits.
-/
def overflows (n : Numeral) : Bool :=
  match n.scale with
  | .ofNat k =>
      n.mantissa != 0 &&
        (309 ≤ k || limit ≤ n.mantissa * Nat.pow 10 k)
  | .negSucc k =>
      k ≤ n.mantissa.log2 && limit * Nat.pow 10 (k + 1) ≤ n.mantissa

------------------------------------------------------------
-- Truncation
------------------------------------------------------------

/- The integer nearest to a ratio; of two, the even one. -/
def nearest (num den : Nat) : Nat :=
  let floor := num / den
  let twice := 2 * (num % den)
  if den < twice ∨ (twice = den ∧ floor % 2 = 1) then floor + 1
  else floor

/- How many binary digits a number has. -/
def width (n : Nat) : Nat :=
  if n = 0 then 0 else n.log2 + 1

/-
  The whole part of the binary64 number nearest to a ratio below
  2 to the 53: the ratio is rounded to 53 binary digits, of which
  those behind the point are dropped.
-/
def wholePart (num den : Nat) : Nat :=
  let places := 53 - width (num / den)
  (nearest (num <<< places) den) >>> places

/-
  The number without its sign and its fraction.  Only the first
  numbers beyond 32 bits are told apart.
-/
def truncated (n : Numeral) : Nat :=
  match n.scale with
  | .ofNat k => wholePart (n.mantissa * Nat.pow 10 (min k 10)) 1
  | .negSucc k =>
      if k ≤ n.mantissa.log2 then
        wholePart n.mantissa (Nat.pow 10 (k + 1))
      else 0

/-
  The 32-bit integer that is left of a number.  A number that does
  not fit becomes the least one, as the processor has it.
-/
def toWord (n : Numeral) : Int :=
  let whole := Decimal.signed n.negative n.truncated
  if Word.signed32 whole = whole then whole else -2147483648

end Numeral

end Marginalia

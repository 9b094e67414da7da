import Marginalia.Text.Bytes

/-
  This file reads and writes whole numbers in decimal.

  Key definitions include:
    * `Decimal.ofNat`, `Decimal.ofInt`
    * `Decimal.value`, `Decimal.signed`
    * `Decimal.isNumeral`
-/

namespace Marginalia

namespace Decimal

/- The digits of a number, without leading zeros. -/
def ofNat (n : Nat) : Bytes :=
  (Nat.toDigits 10 n).map (fun c => c.toNat.toUInt8)

/- The digits of a number, after a minus sign if it is negative. -/
def ofInt : Int → Bytes
| .ofNat n => ofNat n
| .negSucc n => Ascii.minus :: ofNat (n + 1)

/- The number that a row of digits stands for. -/
def value (digits : Bytes) : Nat :=
  digits.foldl (fun n b => n * 10 + (b - Ascii.zero).toNat) 0

/- The number of this size, with or without a minus sign. -/
def signed (negative : Bool) (n : Nat) : Int :=
  if negative then -n else n

/- A numeral is a row of one or more digits. -/
def isNumeral (s : Bytes) : Bool :=
  !s.isEmpty && s.all Ascii.isDigit

end Decimal

end Marginalia

import Marginalia.Json.Basic
import Marginalia.Text.Decimal
import Marginalia.Text.Utf8

/-
  This file writes JSON values: no space between the parts, the
  members in the order of their keys, and characters outside
  ASCII as they are.  A value that holds a text that is not
  UTF-8 has no JSON text.

  Key definitions include:
    * `Json.quote`
    * `Json.compact`
    * `Json.isPrintable`
    * `Json.print?`
-/

namespace Marginalia

namespace Json

------------------------------------------------------------
-- Strings
------------------------------------------------------------

/- A lower-case hexadecimal digit. -/
def hexDigit (n : Nat) : UInt8 :=
  if n < 10 then (48 + n).toUInt8 else (87 + n).toUInt8

/- A byte inside a string: quotes, backslashes and controls are escaped. -/
def quoteByte (b : UInt8) : Bytes :=
  if b = Ascii.quote ∨ b = Ascii.backslash then [Ascii.backslash, b]
  else if b = 8 then [Ascii.backslash, 98]
  else if b = 12 then [Ascii.backslash, 102]
  else if b = 10 then [Ascii.backslash, 110]
  else if b = 13 then [Ascii.backslash, 114]
  else if b = 9 then [Ascii.backslash, 116]
  else if b < 32 then
    [Ascii.backslash, 117, 48, 48,
      hexDigit (b.toNat / 16), hexDigit (b.toNat % 16)]
  else [b]

/- A text between quotes. -/
def quote (s : Bytes) : Bytes :=
  Ascii.quote :: s.flatMap quoteByte ++ [Ascii.quote]

------------------------------------------------------------
-- Values
------------------------------------------------------------

mutual

/- The text of a value. -/
def compact : Json → Bytes
| .null => utf8 "null"
| .bool true => utf8 "true"
| .bool false => utf8 "false"
| .int n => Decimal.ofInt n
| .fractional n => n.source
| .text s => quote s
| .array items =>
    Ascii.lbracket :: compactItems items ++ [Ascii.rbracket]
| .object members =>
    Ascii.lbrace :: compactMembers members ++ [Ascii.rbrace]

/- The elements of an array with commas between them. -/
def compactItems : List Json → Bytes
| [] => []
| item :: items =>
    compact item ++
      (match items with
        | [] => []
        | _ :: _ => Ascii.comma :: compactItems items)

/- The members of an object with commas between them. -/
def compactMembers : List (Bytes × Json) → Bytes
| [] => []
| (key, value) :: members =>
    quote key ++ Ascii.colon :: compact value ++
      (match members with
        | [] => []
        | _ :: _ => Ascii.comma :: compactMembers members)

end

mutual

/- Every text in the value is UTF-8. -/
def isPrintable : Json → Bool
| .text s => Utf8.isValid s
| .array items => areItemsPrintable items
| .object members => areMembersPrintable members
| _ => true

/- Every text in a list of values is UTF-8. -/
def areItemsPrintable : List Json → Bool
| [] => true
| item :: items => isPrintable item && areItemsPrintable items

/- Every key and every text in a list of members is UTF-8. -/
def areMembersPrintable : List (Bytes × Json) → Bool
| [] => true
| (key, value) :: members =>
    Utf8.isValid key && isPrintable value && areMembersPrintable members

end

/- The JSON text of a value, if all its texts are UTF-8. -/
def print? (value : Json) : Option Bytes :=
  if value.isPrintable then some value.compact else none

end Json

end Marginalia

import Marginalia.Json.Basic
import Marginalia.Text.Decimal
import Marginalia.Text.Utf8

/-
  This file reads JSON text.  The reader accepts one value with
  white space around it, and nothing after it but a zero byte
  and what follows that; strings must be UTF-8 and may not
  escape half of a surrogate pair.  A number that no
  floating point number is near stops it with a fault of its own.

  Each function returns the value it read and the text after
  it.  The text is read from left to right, so of several faults
  the first counts.  A nested value is read with one less unit
  of fuel; every level consumes a byte, so the length of the
  text is enough.

  Key definitions include:
    * `Json.ParseFault`
    * `Json.Reader.string`
    * `Json.Reader.number`
    * `Json.Reader.value`
    * `Json.parse`, `Json.parse?`
-/

namespace Marginalia

namespace Json

/- Why a text gives no value: it is not JSON, or a number is too large. -/
inductive ParseFault where
| malformed
| overflow
deriving DecidableEq, Repr

namespace Reader

/- What was read of a text that is JSON up to here, or a fault. -/
def orMalformed {α : Type} : Option α → Except ParseFault α
| some read => .ok read
| none => .error .malformed

------------------------------------------------------------
-- White Space and Words
------------------------------------------------------------

/- The white space that may stand between two parts of a value. -/
def isGap (b : UInt8) : Bool :=
  b == Ascii.space || b == Ascii.tab || b == Ascii.lf || b == Ascii.cr

/- The text after its leading white space. -/
def skipGap (s : Bytes) : Bytes :=
  s.dropWhile isGap

/- The text after a fixed word at its start. -/
def word? (w : Bytes) (s : Bytes) : Option Bytes :=
  if w.isPrefixOf s then some (s.drop w.length) else none

------------------------------------------------------------
-- Strings
------------------------------------------------------------

/- The value of a hexadecimal digit. -/
def hexDigit? (b : UInt8) : Option Nat :=
  if Ascii.isDigit b then some (b.toNat - 48)
  else if 97 ≤ b ∧ b ≤ 102 then some (b.toNat - 87)
  else if 65 ≤ b ∧ b ≤ 70 then some (b.toNat - 55)
  else none

/- The number written with four hexadecimal digits. -/
def hexQuad? (a b c d : UInt8) : Option Nat := do
  let a ← hexDigit? a
  let b ← hexDigit? b
  let c ← hexDigit? c
  let d ← hexDigit? d
  return ((a * 16 + b) * 16 + c) * 16 + d

/- The byte that a one-letter escape stands for. -/
def escaped? (b : UInt8) : Option UInt8 :=
  if b = Ascii.quote ∨ b = Ascii.backslash ∨ b = Ascii.slash then some b
  else if b = 98 then some 8
  else if b = 102 then some 12
  else if b = 110 then some 10
  else if b = 114 then some 13
  else if b = 116 then some 9
  else none

/- The number after a `\u`: four hexadecimal digits. -/
def unit? : Bytes → Option (Nat × Bytes)
| a :: b :: c :: d :: rest =>
    (hexQuad? a b c d).map (fun n => (n, rest))
| _ => none

/-
  The code point of a `\u` escape.  The first half of a
  surrogate pair needs the second half right after it.
-/
def codePoint? (s : Bytes) : Option (Nat × Bytes) :=
  match unit? s with
  | none => none
  | some (high, rest) =>
      if 0xDC00 ≤ high ∧ high ≤ 0xDFFF then none
      else if high < 0xD800 ∨ 0xDFFF < high then some (high, rest)
      else
        match rest with
        | Ascii.backslash :: 117 :: rest =>
            match unit? rest with
            | none => none
            | some (low, rest) =>
                if 0xDC00 ≤ low ∧ low ≤ 0xDFFF then
                  some
                    (0x10000 + (high - 0xD800) * 0x400 +
                      (low - 0xDC00), rest)
                else none
        | _ => none

/-
  The rest of a string after its opening quote, with the bytes
  read so far in reverse.
-/
def stringRest : Nat → Bytes → Bytes → Option (Bytes × Bytes)
| 0, _, _ => none
| _ + 1, _, [] => none
| fuel + 1, read, b :: rest =>
    if b = Ascii.quote then
      if Utf8.isValid read.reverse then some (read.reverse, rest)
      else none
    else if b = Ascii.backslash then
      match rest with
      | [] => none
      | c :: rest =>
          if c = 117 then
            match codePoint? rest with
            | none => none
            | some (n, rest) =>
                stringRest fuel ((Utf8.encode n).reverse ++ read) rest
          else
            match escaped? c with
            | none => none
            | some e => stringRest fuel (e :: read) rest
    else if b < Ascii.space then none
    else stringRest fuel (b :: read) rest

/- A string after its opening quote. -/
def string (s : Bytes) : Option (Bytes × Bytes) :=
  stringRest (s.length + 1) [] s

------------------------------------------------------------
-- Numbers
------------------------------------------------------------

/- One or more digits. -/
def digits (s : Bytes) : Option (Bytes × Bytes) :=
  let run := s.takeWhile Ascii.isDigit
  if run.isEmpty then none else some (run, s.dropWhile Ascii.isDigit)

/- A whole part: digits without a leading zero, or one zero. -/
def whole : Bytes → Option (Bytes × Bytes)
| Ascii.zero :: rest => some ([Ascii.zero], rest)
| s => digits s

/- A point and digits, if there is a point. -/
def fraction : Bytes → Option (Bytes × Bytes)
| Ascii.dot :: rest =>
    (digits rest).map (fun r => (Ascii.dot :: r.1, r.2))
| s => some ([], s)

/- An exponent with its optional sign, if there is one. -/
def exponent : Bytes → Option (Bytes × Bytes)
| e :: rest =>
    if e = 101 ∨ e = 69 then
      match rest with
      | sign :: rest' =>
          if sign = Ascii.plus ∨ sign = Ascii.minus then
            (digits rest').map (fun r => (e :: sign :: r.1, r.2))
          else
            (digits rest).map (fun r => (e :: r.1, r.2))
      | [] => none
    else some ([], e :: rest)
| [] => some ([], [])

/-
  An integer that is kept as one: it fits into 64 bits, with or
  without a sign.
-/
def isInteger (n : Int) : Bool :=
  -9223372036854775808 ≤ n && n < Word.size64

/- The value of a number from its sign and its three parts. -/
def numeral
    (negative : Bool)
    (whole fraction exponent : Bytes) : Except ParseFault Json :=
  let n := Decimal.signed negative (Decimal.value whole)
  if fraction.isEmpty && exponent.isEmpty && isInteger n then
    .ok (.int n)
  else
    let numeral : Numeral := ⟨negative, whole, fraction, exponent⟩
    if numeral.overflows then .error .overflow
    else .ok (.fractional numeral)

/- The three parts of a number without its sign. -/
def parts (s : Bytes) : Option ((Bytes × Bytes × Bytes) × Bytes) := do
  let (w, s) ← whole s
  let (f, s) ← fraction s
  let (e, s) ← exponent s
  some ((w, f, e), s)

/- A number without its sign. -/
def unsigned
    (negative : Bool)
    (s : Bytes) : Except ParseFault (Json × Bytes) :=
  match parts s with
  | none => .error .malformed
  | some ((w, f, e), s) =>
      (numeral negative w f e).map (fun v => (v, s))

/- A number. -/
def number : Bytes → Except ParseFault (Json × Bytes)
| Ascii.minus :: rest => unsigned true rest
| s => unsigned false s

------------------------------------------------------------
-- Values
------------------------------------------------------------

mutual

/- A value at the start of the text. -/
def value : Nat → Bytes → Except ParseFault (Json × Bytes)
| 0, _ => .error .malformed
| fuel + 1, s =>
    match s with
    | [] => .error .malformed
    | b :: rest =>
        if b = Ascii.lbrace then
          match skipGap rest with
          | Ascii.rbrace :: rest => .ok (.object [], rest)
          | rest =>
              (members fuel rest).map
                (fun r => (ofMembers r.1, r.2))
        else if b = Ascii.lbracket then
          match skipGap rest with
          | Ascii.rbracket :: rest => .ok (.array [], rest)
          | rest => (elements fuel rest).map (fun r => (.array r.1, r.2))
        else if b = Ascii.quote then
          (orMalformed (string rest)).map (fun r => (.text r.1, r.2))
        else if b = Ascii.minus ∨ Ascii.isDigit b then
          number (b :: rest)
        else
          match word? (utf8 "true") (b :: rest) with
          | some rest => .ok (.bool true, rest)
          | none =>
              match word? (utf8 "false") (b :: rest) with
              | some rest => .ok (.bool false, rest)
              | none =>
                  (orMalformed (word? (utf8 "null") (b :: rest))).map
                    (fun rest => (.null, rest))

/- The elements of an array up to its closing bracket. -/
def elements : Nat → Bytes → Except ParseFault (List Json × Bytes)
| 0, _ => .error .malformed
| fuel + 1, s =>
    match value fuel (skipGap s) with
    | .error fault => .error fault
    | .ok (v, s) =>
        match skipGap s with
        | Ascii.comma :: s =>
            (elements fuel s).map (fun r => (v :: r.1, r.2))
        | Ascii.rbracket :: s => .ok ([v], s)
        | _ => .error .malformed

/- The members of an object up to its closing brace. -/
def members :
    Nat → Bytes → Except ParseFault (List (Bytes × Json) × Bytes)
| 0, _ => .error .malformed
| fuel + 1, s =>
    match skipGap s with
    | Ascii.quote :: s =>
        match string s with
        | none => .error .malformed
        | some (key, s) =>
            match skipGap s with
            | Ascii.colon :: s =>
                match value fuel (skipGap s) with
                | .error fault => .error fault
                | .ok (v, s) =>
                    match skipGap s with
                    | Ascii.comma :: s =>
                        (members fuel s).map
                          (fun r => ((key, v) :: r.1, r.2))
                    | Ascii.rbrace :: s => .ok ([(key, v)], s)
                    | _ => .error .malformed
            | _ => .error .malformed
    | _ => .error .malformed

end

end Reader

/- The text without a byte order mark at its start. -/
def withoutMark : Bytes → Bytes
| 0xEF :: 0xBB :: 0xBF :: rest => rest
| s => s

/- A text ends where its bytes end or the first is zero. -/
def Reader.isAtEnd : Bytes → Bool
| [] => true
| b :: _ => b == 0

/- The value that a text denotes, or the first fault in it. -/
def parse (s : Bytes) : Except ParseFault Json :=
  let s := withoutMark s
  match Reader.value (2 * s.length + 2) (Reader.skipGap s) with
  | .error fault => .error fault
  | .ok (v, rest) =>
      if Reader.isAtEnd (Reader.skipGap rest) then .ok v
      else .error .malformed

/- The value that a text denotes, if it has one. -/
def parse? (s : Bytes) : Option Json :=
  (parse s).toOption

end Json

end Marginalia

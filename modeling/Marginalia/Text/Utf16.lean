import Marginalia.Text.Bytes

/-
  This file converts between the two ways of counting columns:
  editors count UTF-16 code units, the tokenizer counts bytes.

  A text is cut into pieces, one per character.  A byte that
  starts no complete UTF-8 sequence is a piece of its own and
  counts as one unit, so that the cut is defined on all bytes.

  Key definitions include:
    * `Utf16.pieces`
    * `Utf16.units`
    * `Utf16.toByteColumn`
    * `Utf16.ofByteColumn`
-/

namespace Marginalia

namespace Utf16

------------------------------------------------------------
-- Pieces
------------------------------------------------------------

/- How many continuation bytes a lead byte announces. -/
def announced (lead : UInt8) : Nat :=
  if lead < 0xC0 then 0
  else if lead < 0xE0 then 1
  else if lead < 0xF0 then 2
  else if lead < 0xF8 then 3
  else 0

/- Continuation bytes have the form `10xxxxxx`. -/
def isContinuation (b : UInt8) : Bool :=
  0x80 ≤ b && b < 0xC0

/-
  The number of bytes that belong to the piece of `lead` after
  it: all that it announces, or none if one of them is missing.
-/
def followers (lead : UInt8) (rest : Bytes) : Nat :=
  let n := announced lead
  let tail := rest.take n
  if tail.length = n ∧ tail.all isContinuation then n else 0

/-
  Cut a text into pieces, after `skip` bytes that belong to a
  piece already taken.
-/
def piecesAfter : Nat → Bytes → List Bytes
| _, [] => []
| 0, lead :: rest =>
    let n := followers lead rest
    (lead :: rest.take n) :: piecesAfter n rest
| skip + 1, _ :: rest => piecesAfter skip rest

/- The pieces of a text, in order. -/
def pieces (s : Bytes) : List Bytes :=
  piecesAfter 0 s

/- A piece of four bytes is a surrogate pair; any other is one unit. -/
def units (piece : Bytes) : Nat :=
  if piece.length = 4 then 2 else 1

------------------------------------------------------------
-- Columns
------------------------------------------------------------

/- The bytes of the pieces that begin before UTF-16 column `target`. -/
def bytesBefore : List Bytes → Nat → Nat
| [], _ => 0
| piece :: rest, target =>
    if target = 0 then 0
    else piece.length + bytesBefore rest (target - units piece)

/- The units of the pieces that begin before byte column `target`. -/
def unitsBefore : List Bytes → Nat → Nat
| [], _ => 0
| piece :: rest, target =>
    if target = 0 then 0
    else units piece + unitsBefore rest (target - piece.length)

/-
  The byte column of a UTF-16 column.  A negative column counts
  as zero, one past the end as the length of the line, and one
  inside a surrogate pair as the column after the pair.
-/
def toByteColumn (line : Bytes) (character : Int) : Nat :=
  bytesBefore (pieces line) character.toNat

/-
  The UTF-16 column of a byte column.  One inside a piece counts
  as the column after the piece.
-/
def ofByteColumn (line : Bytes) (column : Nat) : Nat :=
  unitsBefore (pieces line) column

end Utf16

end Marginalia

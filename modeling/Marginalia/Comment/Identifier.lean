import Marginalia.Text.Bytes

/-
  This file spells identifiers out as words.

  Key definitions include:
    * `Identifier.isIdentifier`
    * `Identifier.words`
-/

namespace Marginalia

namespace Identifier

/- The byte may stand in an identifier. -/
def isPart (b : UInt8) : Bool :=
  Ascii.isAlphanumeric b || b == Ascii.underscore || b == Ascii.minus

/-
  The text looks like an identifier: letters, digits, `_` and
  `-`, with a letter or a digit among them.
-/
def isIdentifier (s : Bytes) : Bool :=
  s.all isPart && s.any Ascii.isAlphanumeric

/- The byte separates words. -/
def isSeparator (b : UInt8) : Bool :=
  b == Ascii.underscore || b == Ascii.minus || Ascii.isSpace b

/-
  A word begins at an upper-case letter after a lower-case
  letter or a digit, and at the last letter of a row of
  upper-case letters if a lower-case letter follows.
-/
def isBoundary (before : Option UInt8) (b : UInt8)
    (after : Option UInt8) : Bool :=
  Ascii.isUpper b &&
    before.any (fun a =>
      Ascii.isLower a || Ascii.isDigit a ||
        (Ascii.isUpper a && after.any Ascii.isLower))

/-
  The text in lower case, with a space for each separator and
  before each word that begins without one.
-/
def spread (before : Option UInt8) : Bytes → Bytes
| [] => []
| b :: rest =>
    if isSeparator b then Ascii.space :: spread (some b) rest
    else if isBoundary before b rest.head? then
      Ascii.space :: Ascii.toLower b :: spread (some b) rest
    else Ascii.toLower b :: spread (some b) rest

/-
  The text with one space for each row of spaces and none at its
  end; `owed` says that a space comes before the next word.
-/
def squeeze (owed : Bool) : Bytes → Bytes
| [] => []
| b :: rest =>
    if b = Ascii.space then squeeze true rest
    else if owed then Ascii.space :: b :: squeeze false rest
    else b :: squeeze false rest

/- The words of an identifier, in lower case with a space between two. -/
def words (s : Bytes) : Bytes :=
  squeeze false ((spread none s).dropWhile (· == Ascii.space))

end Identifier

end Marginalia

/-
  This file defines the text that every other module works on:
  byte strings, the ASCII bytes that have a name, and the few
  classes of bytes that comments and patterns distinguish.

  Key definitions include:
    * `Bytes`
    * `utf8`
    * `Ascii.isSpace`, `Ascii.isBlank`, `Ascii.toLower`
    * `Bytes.splitLines`
    * `Bytes.join`
    * `Bytes.trim`
    * `Bytes.lower`
-/

namespace Marginalia

/-
  Text is a list of bytes.  It is usually UTF-8, but a column
  may cut through a character, so no encoding is promised.
-/
abbrev Bytes :=
  List UInt8

/- The UTF-8 bytes of a string. -/
def utf8 (s : String) : Bytes :=
  s.toUTF8.data.toList

------------------------------------------------------------
-- ASCII
------------------------------------------------------------

namespace Ascii

@[match_pattern] abbrev tab : UInt8 := 9
@[match_pattern] abbrev lf : UInt8 := 10
@[match_pattern] abbrev cr : UInt8 := 13
@[match_pattern] abbrev space : UInt8 := 32
@[match_pattern] abbrev bang : UInt8 := 33
@[match_pattern] abbrev quote : UInt8 := 34
@[match_pattern] abbrev hash : UInt8 := 35
@[match_pattern] abbrev dollar : UInt8 := 36
@[match_pattern] abbrev percent : UInt8 := 37
@[match_pattern] abbrev lparen : UInt8 := 40
@[match_pattern] abbrev rparen : UInt8 := 41
@[match_pattern] abbrev star : UInt8 := 42
@[match_pattern] abbrev plus : UInt8 := 43
@[match_pattern] abbrev comma : UInt8 := 44
@[match_pattern] abbrev minus : UInt8 := 45
@[match_pattern] abbrev dot : UInt8 := 46
@[match_pattern] abbrev slash : UInt8 := 47
@[match_pattern] abbrev zero : UInt8 := 48
@[match_pattern] abbrev nine : UInt8 := 57
@[match_pattern] abbrev colon : UInt8 := 58
@[match_pattern] abbrev semicolon : UInt8 := 59
@[match_pattern] abbrev less : UInt8 := 60
@[match_pattern] abbrev equals : UInt8 := 61
@[match_pattern] abbrev greater : UInt8 := 62
@[match_pattern] abbrev question : UInt8 := 63
@[match_pattern] abbrev lbracket : UInt8 := 91
@[match_pattern] abbrev backslash : UInt8 := 92
@[match_pattern] abbrev rbracket : UInt8 := 93
@[match_pattern] abbrev caret : UInt8 := 94
@[match_pattern] abbrev underscore : UInt8 := 95
@[match_pattern] abbrev lbrace : UInt8 := 123
@[match_pattern] abbrev bar : UInt8 := 124
@[match_pattern] abbrev rbrace : UInt8 := 125

/- White space: the space and the controls from tab to carriage return. -/
def isSpace (b : UInt8) : Bool :=
  b == space || (tab ≤ b && b ≤ cr)

/- What separates lines inside a text: line feed, form feed and return. -/
def isSeparator (b : UInt8) : Bool :=
  b == lf || b == 12 || b == cr

/- Blanks are what trimming removes: space, tab and carriage return. -/
def isBlank (b : UInt8) : Bool :=
  b == space || b == tab || b == cr

/- Decimal digits. -/
def isDigit (b : UInt8) : Bool :=
  zero ≤ b && b ≤ nine

/- Lower-case letters. -/
def isLower (b : UInt8) : Bool :=
  97 ≤ b && b ≤ 122

/- Upper-case letters. -/
def isUpper (b : UInt8) : Bool :=
  65 ≤ b && b ≤ 90

/- Letters and digits. -/
def isAlphanumeric (b : UInt8) : Bool :=
  isLower b || isUpper b || isDigit b

/- Word bytes: letters, digits and the underscore. -/
def isWord (b : UInt8) : Bool :=
  isAlphanumeric b || b == underscore

/- The lower-case letter of an upper-case one; other bytes stay. -/
def toLower (b : UInt8) : UInt8 :=
  if isUpper b then b + 32 else b

/- The upper-case letter of a lower-case one; other bytes stay. -/
def toUpper (b : UInt8) : UInt8 :=
  if isLower b then b - 32 else b

end Ascii

------------------------------------------------------------
-- Operations on Byte Strings
------------------------------------------------------------

namespace Bytes

/- The pieces of a text between line feeds; there is always one. -/
def splitLines : Bytes → List Bytes
| [] => [[]]
| b :: rest =>
    if b = Ascii.lf then
      [] :: splitLines rest
    else
      match splitLines rest with
      | [] => [[b]]
      | line :: lines => (b :: line) :: lines

/- Texts one after the other, with a separator between two of them. -/
def join (separator : Bytes) : List Bytes → Bytes
| [] => []
| [line] => line
| line :: next :: lines =>
    line ++ separator ++ join separator (next :: lines)

/- The text without its trailing blanks. -/
def trimEnd (s : Bytes) : Bytes :=
  (s.reverse.dropWhile Ascii.isBlank).reverse

/- The text without the blanks at its two ends. -/
def trim (s : Bytes) : Bytes :=
  trimEnd (s.dropWhile Ascii.isBlank)

/- The text with its ASCII letters in lower case. -/
def lower (s : Bytes) : Bytes :=
  s.map Ascii.toLower

/- The bytes from column `start` up to column `stop`. -/
def slice (s : Bytes) (start stop : Nat) : Bytes :=
  (s.drop start).take (stop - start)

/- Every byte of the text is white space. -/
def isBlankLine (s : Bytes) : Bool :=
  s.all Ascii.isSpace

end Bytes

end Marginalia

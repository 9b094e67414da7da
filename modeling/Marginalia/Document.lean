import Marginalia.Text.Utf16

/-
  This file defines the documents that an editor keeps open,
  the positions and ranges by which it speaks of them, and the
  edits that it sends.

  Key definitions include:
    * `Position`, `Range`
    * `Document`
    * `Document.offsetOf`
    * `Document.lines`, `Document.lineAt`
    * `Document.setText`, `Document.applyChange`
-/

namespace Marginalia

------------------------------------------------------------
-- Positions and Ranges
------------------------------------------------------------

/- A line number and a UTF-16 column, both counted from zero. -/
structure Position where
  line : Int
  character : Int
deriving DecidableEq, Repr, Inhabited

/- Two positions; the end is not included. -/
structure Range where
  start : Position
  stop : Position
deriving DecidableEq, Repr, Inhabited

------------------------------------------------------------
-- Documents
------------------------------------------------------------

/- An open document: where it lives, its language, its version and its text. -/
structure Document where
  uri : Bytes
  languageId : Bytes
  version : Int
  text : Bytes
deriving DecidableEq, Repr, Inhabited

namespace Document

/-
  The offset of a column in a list of lines: past the last line
  it is the end of the text.
-/
def offsetIn : List Bytes → Nat → Int → Nat
| [], _, _ => 0
| line :: _, 0, character => Utf16.toByteColumn line character
| [line], _ + 1, _ => line.length
| line :: next :: lines, n + 1, character =>
    line.length + 1 + offsetIn (next :: lines) n character

/-
  The byte offset of a position in a text.  A line is what
  stands between two line feeds, a carriage return included.  A
  negative line counts as the first one.
-/
def offsetOf (text : Bytes) (position : Position) : Nat :=
  offsetIn (Bytes.splitLines text) position.line.toNat
    position.character

/- The line without one carriage return at its end. -/
def dropReturn (line : Bytes) : Bytes :=
  if line.getLast? = some Ascii.cr then line.dropLast else line

/- The lines of a document without their line ends. -/
def lines (document : Document) : List Bytes :=
  (Bytes.splitLines document.text).map dropReturn

/- One line; past the last one it is empty. -/
def lineAt (document : Document) (n : Nat) : Bytes :=
  document.lines.getD n []

/- Replace the whole text. -/
def setText
    (document : Document)
    (text : Bytes)
    (version : Int) : Document :=
  { document with text := text, version := version }

/-
  Replace a range of the text.  The two ends of the range may
  come in either order.
-/
def applyChange
    (document : Document)
    (range : Range)
    (text : Bytes)
    (version : Int) : Document :=
  let a := offsetOf document.text range.start
  let b := offsetOf document.text range.stop
  { document with
    text :=
      document.text.take (min a b) ++ text ++
        document.text.drop (max a b)
    version := version }

end Document

end Marginalia

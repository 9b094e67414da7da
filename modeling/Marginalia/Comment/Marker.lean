import Marginalia.Text.Bytes

/-
  This file takes the marks of a comment away from its text, by
  replacing them with spaces.  It serves the languages whose
  grammar does not say which tokens are marks.

  Key definitions include:
    * `Marker.lineMark`
    * `Marker.stripLine`
    * `Marker.openMark`, `Marker.closeMarkReversed`
    * `Marker.stripStar`, `Marker.stripTrailingStars`
    * `Marker.stripBlock`
-/

namespace Marginalia

namespace Marker

/- The length of the run of a byte that a text begins with. -/
def runLength (b : UInt8) (s : Bytes) : Nat :=
  (s.takeWhile (· == b)).length

/- Replace the first `n` bytes by spaces. -/
def blank (n : Nat) (s : Bytes) : Bytes :=
  List.replicate n Ascii.space ++ s.drop n

------------------------------------------------------------
-- Line Comments
------------------------------------------------------------

/-
  The length of the mark that a line comment begins with: two
  slashes and what repeats them, a run of `#` with an optional
  bang, a run of `%` or of `;`, or two dashes or more.
-/
def lineMark : Bytes → Nat
| Ascii.slash :: Ascii.slash :: rest =>
    2 +
      (rest.takeWhile
        (fun b => b == Ascii.slash || b == Ascii.bang)).length
| Ascii.hash :: rest =>
    let n := 1 + runLength Ascii.hash rest
    match rest.drop (n - 1) with
    | Ascii.bang :: _ => n + 1
    | _ => n
| Ascii.percent :: rest => 1 + runLength Ascii.percent rest
| Ascii.semicolon :: rest => 1 + runLength Ascii.semicolon rest
| Ascii.minus :: Ascii.minus :: rest => 2 + runLength Ascii.minus rest
| _ => 0

/- Replace the tabs among the leading spaces and tabs by spaces. -/
def flattenTabs : Bytes → Bytes
| [] => []
| b :: rest =>
    if b = Ascii.space ∨ b = Ascii.tab then
      Ascii.space :: flattenTabs rest
    else b :: rest

/- A line comment with its mark, and the white space after it, blank. -/
def stripLine (s : Bytes) : Bytes :=
  let lead := s.takeWhile Ascii.isBlank
  let rest := s.dropWhile Ascii.isBlank
  let n := lineMark rest
  lead ++ List.replicate n Ascii.space ++ flattenTabs (rest.drop n)

------------------------------------------------------------
-- Block Comments
------------------------------------------------------------

/- The length of the mark that a block comment begins with. -/
def openMark : Bytes → Nat
| Ascii.less :: Ascii.bang :: Ascii.minus :: Ascii.minus :: rest =>
    4 + runLength Ascii.minus rest
| Ascii.slash :: Ascii.star :: rest => 2 + runLength Ascii.star rest
| Ascii.lbrace :: Ascii.minus :: _ => 2
| _ => 0

/- The length of the mark that a block comment, read backwards, begins with. -/
def closeMarkReversed : Bytes → Nat
| Ascii.greater :: Ascii.minus :: Ascii.minus :: rest =>
    3 + runLength Ascii.minus rest
| Ascii.slash :: Ascii.star :: rest => 2 + runLength Ascii.star rest
| Ascii.rbrace :: Ascii.minus :: _ => 2
| _ => 0

/- Make a mark blank that stands after the leading blanks. -/
def blankAfterLead (mark : Bytes → Nat) (s : Bytes) : Bytes :=
  let lead := s.takeWhile Ascii.isBlank
  let rest := s.dropWhile Ascii.isBlank
  lead ++ blank (mark rest) rest

/- Make one star blank that stands after the leading blanks. -/
def stripStar : Bytes → Bytes
| [] => []
| b :: rest =>
    if Ascii.isBlank b then b :: stripStar rest
    else if b = Ascii.star then Ascii.space :: rest
    else b :: rest

/-
  Take away the stars at the end of a line, if nothing but
  blanks stands next to them.
-/
def stripTrailingStars (s : Bytes) : Bytes :=
  let reversed := s.reverse
  let trail := reversed.takeWhile Ascii.isBlank
  let body := reversed.dropWhile Ascii.isBlank
  let rest := body.dropWhile (· == Ascii.star)
  if rest.length < body.length ∧ rest.head?.all Ascii.isBlank then
    (trail ++ rest).reverse
  else s

/-
  A block comment with its two marks, and one star at the start
  of each line, blank.
-/
def stripBlock (s : Bytes) : Bytes :=
  let opened := blankAfterLead openMark s
  let closed := (blankAfterLead closeMarkReversed opened.reverse).reverse
  Bytes.join [Ascii.lf] ((Bytes.splitLines closed).map stripStar)

end Marker

end Marginalia

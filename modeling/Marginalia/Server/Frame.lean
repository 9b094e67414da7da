import Marginalia.Document
import Marginalia.Text.Decimal
import Marginalia.Word

/-
  This file defines how messages are framed on a stream of
  bytes: header lines, one of which gives the length of the
  body, then an empty line, then the body.

  A frame whose header gives no length, or the length zero, ends
  the conversation.

  Key definitions include:
    * `Frame.lengthField`, `Frame.encode`
    * `Frame.parseLength?`
    * `Frame.Header`, `Frame.readHeader`
    * `Frame.Outcome`, `Frame.decodeWithin`, `Frame.decode`
    * `Frame.awaited`, `Frame.isHeadComplete`
  The main statement is that decoding leaves less to decode:
    * `Frame.readHeader_length`
-/

namespace Marginalia

namespace Frame

------------------------------------------------------------
-- Writing
------------------------------------------------------------

/- The name of the header line with the length, and its colon. -/
def lengthField : Bytes :=
  utf8 "Content-Length:"

/- A line end. -/
def newline : Bytes :=
  [Ascii.cr, Ascii.lf]

/- The frame of a body. -/
def encode (body : Bytes) : Bytes :=
  lengthField ++ Ascii.space :: Decimal.ofNat body.length ++
    newline ++ newline ++ body

------------------------------------------------------------
-- Lengths
------------------------------------------------------------

/- The length beyond which no body can be held in memory: 32 gibibytes. -/
def maxLength : Nat :=
  34359738368

/-
  The number of a text: white space, a sign, and digits, after
  which anything may follow.  A number that does not fit into a
  word is refused; a negative one counts down from the size of
  the word.
-/
def parseLength? (text : Bytes) : Option Nat :=
  let (negative, rest) :=
    match text.dropWhile Ascii.isSpace with
    | Ascii.minus :: rest => (true, rest)
    | Ascii.plus :: rest => (false, rest)
    | rest => (false, rest)
  let digits := rest.takeWhile Ascii.isDigit
  let n := Decimal.value digits
  if digits.isEmpty || Word.size64 ≤ n then none
  else if negative then some ((Word.size64 - n) % Word.size64)
  else some n

------------------------------------------------------------
-- Headers
------------------------------------------------------------

/-
  What a header says: the length of the body, and how many
  lengths are faulty.
-/
structure Header where
  length : Nat
  faults : Nat
deriving DecidableEq, Repr

namespace Header

/- A header without lines. -/
def blank : Header :=
  ⟨0, 0⟩

/- One more line.  The last length counts, and a faulty one as zero. -/
def addLine (header : Header) (line : Bytes) : Header :=
  if lengthField.isPrefixOf line then
    match parseLength? (line.drop lengthField.length) with
    | some length => { header with length := length }
    | none => { length := 0, faults := header.faults + 1 }
  else header

end Header

/- The text after its first line feed, if it has one. -/
def afterLine? (s : Bytes) : Option Bytes :=
  match s.dropWhile (· != Ascii.lf) with
  | [] => none
  | _ :: rest => some rest

/- What comes after the first line is shorter. -/
theorem length_afterLine_lt
    {s rest : Bytes}
    (h : afterLine? s = some rest) :
    rest.length < s.length := by
  unfold afterLine? at h
  split at h
  · cases h
  · next b _ hDrop =>
      cases h
      have hSuffix : (b :: rest).length ≤ s.length := by
        rw [← hDrop]
        exact (List.dropWhile_suffix _).length_le
      exact hSuffix

/-
  Read header lines up to the empty one.  The result is the
  header, and the text after it if the empty line was found.
-/
def readHeader (header : Header) (s : Bytes) : Header × Option Bytes :=
  let line := Document.dropReturn (s.takeWhile (· != Ascii.lf))
  match _hAfter : afterLine? s with
  | none => (header.addLine line, none)
  | some rest =>
      if line.isEmpty then (header, some rest)
      else readHeader (header.addLine line) rest
termination_by s.length
decreasing_by exact length_afterLine_lt _hAfter

/- The text after a header is shorter. -/
theorem readHeader_length
    {s rest : Bytes} :
    ∀ (header : Header),
      (readHeader header s).2 = some rest → rest.length < s.length := by
  induction hn : s.length using Nat.strongRecOn generalizing s with
  | ind n ih =>
      intro header h
      unfold readHeader at h
      dsimp only at h
      split at h
      · cases h
      · next next? hNext =>
          have hLt := length_afterLine_lt hNext
          split at h
          · cases h
            omega
          · have := ih _ (by omega) rfl _ h
            omega

------------------------------------------------------------
-- Frames
------------------------------------------------------------

/-
  What a stream begins with: a body and what comes after it, a
  header whose body is too long to be held, the end of the
  conversation, or a frame that is not complete.
-/
inductive Outcome where
| body (content rest : Bytes)
| overlong (rest : Bytes)
| closed
| incomplete
deriving DecidableEq, Repr

/-
  Read a frame where bodies up to a length can be held, and count
  the faulty lengths in its header.
-/
def decodeWithin (limit : Nat) (s : Bytes) : Outcome × Nat :=
  match readHeader Header.blank s with
  | (header, none) => (.incomplete, header.faults)
  | (header, some rest) =>
      if header.length = 0 then (.closed, header.faults)
      else if limit < header.length then
        (.overlong rest, header.faults)
      else if rest.length < header.length then
        (.incomplete, header.faults)
      else
        (.body (rest.take header.length) (rest.drop header.length),
          header.faults)

/- Read a frame within what memory can hold. -/
def decode (s : Bytes) : Outcome × Nat :=
  decodeWithin maxLength s

/- How many bytes of a body to wait for after a header. -/
def awaited (head : Bytes) : Nat :=
  let length := (readHeader Header.blank head).1.length
  if maxLength < length then 0 else length

/- The header at the start of a text is complete. -/
def isHeadComplete (s : Bytes) : Bool :=
  (readHeader Header.blank s).2.isSome

/- More can be read after what a stream began with. -/
def Outcome.goesOn : Outcome → Bool
| .body _ _ => true
| .overlong _ => true
| .closed => false
| .incomplete => false

/- What comes after a body is shorter. -/
theorem length_rest_of_body
    {limit : Nat}
    {s content rest : Bytes}
    {faults : Nat}
    (h : decodeWithin limit s = (.body content rest, faults)) :
    rest.length < s.length := by
  unfold decodeWithin at h
  split at h
  · cases h
  · next header after hHeader =>
      have hAfter :=
        readHeader_length Header.blank (congrArg Prod.snd hHeader)
      split at h
      · cases h
      · split at h
        · cases h
        · split at h
          · cases h
          · cases h
            simp only [List.length_drop]
            omega

/- What comes after the header of an overlong body is shorter. -/
theorem length_rest_of_overlong
    {limit : Nat}
    {s rest : Bytes}
    {faults : Nat}
    (h : decodeWithin limit s = (.overlong rest, faults)) :
    rest.length < s.length := by
  unfold decodeWithin at h
  split at h
  · cases h
  · next header after hHeader =>
      have hAfter :=
        readHeader_length Header.blank (congrArg Prod.snd hHeader)
      split at h
      · cases h
      · split at h
        · cases h
          exact hAfter
        · split at h <;> cases h

end Frame

end Marginalia

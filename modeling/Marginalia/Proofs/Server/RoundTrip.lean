import Mathlib.Data.List.Basic
import Marginalia.Proofs.Server.Framing

/-
  This file proves that a reader gets back exactly the bodies
  that a writer framed, whatever bytes are in them.

  The frames may have more header lines than the one with the
  length, before and after it, and each of their lines may end
  with or without a carriage return.

  Key definitions include:
    * `Frame.Reading`, `Frame.readAllWithin`
    * `Frame.ExtraLine`
    * `Frame.Sent`, `Frame.Sent.bytes`
  The main statements are:
    * `Frame.decodeWithin_sent`
    * `Frame.readAllWithin_sent`
    * `Frame.readAllWithin_roundTrip`
-/

namespace Marginalia

namespace Frame

------------------------------------------------------------
-- Reading Again and Again
------------------------------------------------------------

/-
  What a reader gets from a stream: the bodies of its frames, up
  to the first time that there is none, and then what is left of
  the stream and what was there instead of a body.
-/
structure Reading where
  bodies : List Bytes
  left : Bytes
  last : Outcome
deriving DecidableEq, Repr

/- Read frames until there is no body. -/
def readAllWithin (limit : Nat) (s : Bytes) : Reading :=
  match _hDecode : decodeWithin limit s with
  | (.body content rest, _) =>
      let reading := readAllWithin limit rest
      { reading with bodies := content :: reading.bodies }
  | (last, _) => ⟨[], s, last⟩
termination_by s.length
decreasing_by exact length_rest_of_body _hDecode

/- At the end of the input there is nothing to read. -/
theorem readAllWithin_nil
    (limit : Nat) :
    readAllWithin limit [] = ⟨[], [], .incomplete⟩ := by
  have hDecode : decodeWithin limit [] = (.incomplete, 0) := by
    rw [decodeWithin, readHeader]
    rfl
  unfold readAllWithin
  split <;> simp_all

/- A frame is read, and then the rest. -/
theorem readAllWithin_of_body
    {limit : Nat}
    {s content rest : Bytes}
    {faults : Nat}
    (hDecode : decodeWithin limit s = (.body content rest, faults)) :
    readAllWithin limit s =
      { readAllWithin limit rest with
        bodies := content :: (readAllWithin limit rest).bodies } := by
  rw [readAllWithin]
  split <;> simp_all

------------------------------------------------------------
-- Frames with Other Header Lines
------------------------------------------------------------

/- What comes before the line feed of a line. -/
def lineReturn (hasReturn : Bool) : Bytes :=
  if hasReturn then [Ascii.cr] else []

/- There is no line feed in it. -/
theorem lf_not_mem_lineReturn
    (hasReturn : Bool) :
    Ascii.lf ∉ lineReturn hasReturn := by
  cases hasReturn <;> decide

/- The ending of a line that does not end in a return is dropped. -/
theorem dropReturn_lineReturn
    {line : Bytes}
    (hLine : line.getLast? ≠ some Ascii.cr)
    (hasReturn : Bool) :
    Document.dropReturn (line ++ lineReturn hasReturn) = line := by
  cases hasReturn with
  | true => exact dropReturn_append line
  | false => simp [lineReturn, Document.dropReturn, hLine]

/-
  A header line that says nothing about a length: it is not
  empty, and has no line feed and no carriage return at its end.
-/
structure ExtraLine where
  text : Bytes
  hasReturn : Bool
  text_ne_nil : text ≠ []
  lf_not_mem : Ascii.lf ∉ text
  getLast?_ne : text.getLast? ≠ some Ascii.cr
  not_length : lengthField.isPrefixOf text = false

/- The bytes of a line before its line feed. -/
def ExtraLine.bytes (line : ExtraLine) : Bytes :=
  line.text ++ lineReturn line.hasReturn

/- Lines like these change nothing in a header. -/
theorem foldl_addLine_extra
    (lines : List ExtraLine)
    (header : Header) :
    (lines.map ExtraLine.bytes).foldl (fun header line =>
        header.addLine (Document.dropReturn line)) header =
      header := by
  apply Header.foldl_addLine_of_not_length
  intro line hLine
  rcases List.mem_map.mp hLine with ⟨extra, _, hSame⟩
  rw [← hSame, ExtraLine.bytes, dropReturn_lineReturn extra.getLast?_ne]
  exact extra.not_length

/- The line with a length ends in a digit. -/
theorem getLast?_lengthLine
    (n : Nat) :
    (lengthLine n).getLast? ≠ some Ascii.cr := by
  intro hLast
  have hDigits : (Decimal.ofNat n).getLast? = some Ascii.cr := by
    have hSplit :
        lengthLine n =
          (lengthField ++ [Ascii.space]) ++ Decimal.ofNat n := by
      simp [lengthLine]
    rwa [hSplit, List.getLast?_append_of_ne_nil _
      (Decimal.ofNat_ne_nil n)] at hLast
  have hDigit :=
    Decimal.isDigit_of_mem_ofNat (List.mem_of_getLast? hDigits)
  exact absurd hDigit (by decide)

/-
  A frame as writers may send it: the line with the length of
  its body among others, and the body, which is not empty.
-/
structure Sent where
  before : List ExtraLine
  lengthHasReturn : Bool
  after : List ExtraLine
  blankHasReturn : Bool
  body : Bytes
  body_ne_nil : body ≠ []
  length_lt : body.length < Word.size64

namespace Sent

/- The header lines of a frame before their line feeds. -/
def lines (frame : Sent) : List Bytes :=
  frame.before.map ExtraLine.bytes ++
    (lengthLine frame.body.length ++ lineReturn frame.lengthHasReturn) ::
      frame.after.map ExtraLine.bytes

/- The bytes of a frame. -/
def bytes (frame : Sent) : Bytes :=
  linesOf frame.lines ++ lineReturn frame.blankHasReturn ++
    Ascii.lf :: frame.body

/- The frame of a body as the server writes it. -/
def ofBody
    (body : Bytes)
    (hBody : body ≠ [])
    (hFits : body.length < Word.size64) : Sent where
  before := []
  lengthHasReturn := true
  after := []
  blankHasReturn := true
  body := body
  body_ne_nil := hBody
  length_lt := hFits

/- Its bytes are those of the frame. -/
theorem bytes_ofBody
    {body : Bytes}
    (hBody : body ≠ [])
    (hFits : body.length < Word.size64) :
    (ofBody body hBody hFits).bytes = encode body := by
  simp [bytes, lines, ofBody, linesOf, lineReturn, encode, lengthLine,
    newline]

/- Every header line of a frame is read up to its end. -/
theorem readable_of_mem_lines
    {frame : Sent}
    {line : Bytes}
    (hLine : line ∈ frame.lines) :
    Ascii.lf ∉ line ∧ Document.dropReturn line ≠ [] := by
  have hText :
      ∃ (text : Bytes) (hasReturn : Bool),
        line = text ++ lineReturn hasReturn ∧
          Ascii.lf ∉ text ∧ text ≠ [] ∧
            text.getLast? ≠ some Ascii.cr := by
    have hExtra :
        ∀ lines : List ExtraLine, line ∈ lines.map ExtraLine.bytes →
          ∃ (text : Bytes) (hasReturn : Bool),
            line = text ++ lineReturn hasReturn ∧
              Ascii.lf ∉ text ∧ text ≠ [] ∧
                text.getLast? ≠ some Ascii.cr := by
      intro lines hMember
      rcases List.mem_map.mp hMember with ⟨extra, _, hSame⟩
      exact
        ⟨extra.text, extra.hasReturn, hSame.symm, extra.lf_not_mem,
          extra.text_ne_nil, extra.getLast?_ne⟩
    rcases List.mem_append.mp hLine with hBefore | hOther
    · exact hExtra _ hBefore
    · rcases List.mem_cons.mp hOther with hLength | hAfter
      · refine ⟨_, _, hLength, ?_, ?_, getLast?_lengthLine _⟩
        · intro hMember
          exact
            lf_not_mem_lengthLine _ (List.mem_append_left _ hMember)
        · simp [lengthLine]
      · exact hExtra _ hAfter
  rcases hText with ⟨text, hasReturn, hSame, hNoFeed, hNe, hLast⟩
  rw [hSame, dropReturn_lineReturn hLast]
  refine ⟨?_, hNe⟩
  intro hMember
  rcases List.mem_append.mp hMember with hIn | hIn
  · exact hNoFeed hIn
  · exact lf_not_mem_lineReturn hasReturn hIn

/- Its header says the length of its body, and nothing faulty. -/
theorem ofLines_lines
    (frame : Sent) :
    Header.ofLines frame.lines = ⟨frame.body.length, 0⟩ := by
  simp only [Header.ofLines, lines, List.foldl_append,
    List.foldl_cons, foldl_addLine_extra,
    dropReturn_lineReturn (getLast?_lengthLine _),
    addLine_lengthLine frame.length_lt]
  rfl

end Sent

/- A frame is read as its body, and leaves what follows it. -/
theorem decodeWithin_sent
    {limit : Nat}
    (frame : Sent)
    (hHeld : frame.body.length ≤ limit)
    (rest : Bytes) :
    decodeWithin limit (frame.bytes ++ rest) =
      (.body frame.body rest, 0) := by
  have hBlank :
      Document.dropReturn (lineReturn frame.blankHasReturn) = [] := by
    cases frame.blankHasReturn <;> rfl
  have hRead :=
    readHeader_linesOf
      (lf_not_mem_lineReturn frame.blankHasReturn) hBlank
      (frame.body ++ rest) frame.lines Header.blank
      (fun _ hLine => (Sent.readable_of_mem_lines hLine).1)
      (fun _ hLine => (Sent.readable_of_mem_lines hLine).2)
  have hHeader :
      readHeader Header.blank (frame.bytes ++ rest) =
        (⟨frame.body.length, 0⟩, some (frame.body ++ rest)) := by
    rw [← Sent.ofLines_lines frame, Header.ofLines, ← hRead]
    simp [Sent.bytes]
  exact decodeWithin_body hHeader rfl frame.body_ne_nil hHeld

------------------------------------------------------------
-- Streams of Frames
------------------------------------------------------------

/-
  The bodies of frames are read in order, up to the end of the
  input.  The induction is on the frames: what is left after one
  of them are the others.
-/
theorem readAllWithin_sent
    {limit : Nat}
    (frames : List Sent)
    (hHeld : ∀ frame ∈ frames, frame.body.length ≤ limit) :
    readAllWithin limit (frames.flatMap Sent.bytes) =
      ⟨frames.map Sent.body, [], .incomplete⟩ := by
  induction frames with
  | nil => exact readAllWithin_nil limit
  | cons frame frames ih =>
      have hFirst :=
        decodeWithin_sent frame (hHeld frame List.mem_cons_self)
          (frames.flatMap Sent.bytes)
      have hRest :
          ∀ other ∈ frames, other.body.length ≤ limit :=
        fun other hOther => hHeld other (List.mem_cons_of_mem _ hOther)
      rw [List.flatMap_cons,
        readAllWithin_of_body hFirst, ih hRest]
      rfl

/- Bodies that the server frames are sent in such frames. -/
theorem exists_sent_of_bodies
    (bodies : List Bytes)
    (hBodies :
      ∀ body ∈ bodies, body ≠ [] ∧ body.length < Word.size64) :
    ∃ frames : List Sent,
      frames.map Sent.body = bodies ∧
        frames.flatMap Sent.bytes = bodies.flatMap encode := by
  induction bodies with
  | nil => exact ⟨[], rfl, rfl⟩
  | cons body bodies ih =>
      have hFirst := hBodies body List.mem_cons_self
      have hRest :
          ∀ other ∈ bodies,
            other ≠ [] ∧ other.length < Word.size64 :=
        fun other hOther => hBodies other (List.mem_cons_of_mem _ hOther)
      rcases ih hRest with ⟨frames, hSame, hBytes⟩
      refine ⟨Sent.ofBody body hFirst.1 hFirst.2 :: frames, ?_, ?_⟩
      · rw [List.map_cons, hSame]
        rfl
      · rw [List.flatMap_cons, List.flatMap_cons, hBytes,
          Sent.bytes_ofBody]

/-
  A reader gets back the bodies that were framed and then finds
  the input at its end, whatever the limit is within which it
  holds bodies, as long as they are within it: the server's own
  frames and those with more header lines or other line ends.
-/
theorem readAllWithin_roundTrip
    {limit : Nat}
    (hLimit : limit < Word.size64) :
    (∀ bodies : List Bytes,
        (∀ body ∈ bodies, body ≠ [] ∧ body.length ≤ limit) →
          readAllWithin limit (bodies.flatMap encode) =
            ⟨bodies, [], .incomplete⟩) ∧
      ∀ frames : List Sent,
        (∀ frame ∈ frames, frame.body.length ≤ limit) →
          readAllWithin limit (frames.flatMap Sent.bytes) =
            ⟨frames.map Sent.body, [], .incomplete⟩ := by
  refine ⟨?_, readAllWithin_sent⟩
  intro bodies hBodies
  have hFits :
      ∀ body ∈ bodies, body ≠ [] ∧ body.length < Word.size64 :=
    fun body hBody =>
      ⟨(hBodies body hBody).1,
        Nat.lt_of_le_of_lt (hBodies body hBody).2 hLimit⟩
  rcases exists_sent_of_bodies bodies hFits with
    ⟨frames, hSame, hBytes⟩
  rw [← hBytes, ← hSame]
  apply readAllWithin_sent
  intro frame hFrame
  have hBody : frame.body ∈ bodies := by
    rw [← hSame]
    exact List.mem_map_of_mem hFrame
  exact (hBodies frame.body hBody).2

/-
  A frame whose body looks like the header of another one, with
  a line that ends in a line feed before its length and one that
  ends in a carriage return after it.
-/
def imitation : Sent where
  before :=
    [{ text := utf8 "Content-Type: text"
       hasReturn := false
       text_ne_nil := by decide
       lf_not_mem := by decide
       getLast?_ne := by decide
       not_length := by decide }]
  lengthHasReturn := false
  after :=
    [{ text := utf8 "content-length: 3"
       hasReturn := true
       text_ne_nil := by decide
       lf_not_mem := by decide
       getLast?_ne := by decide
       not_length := by decide }]
  blankHasReturn := false
  body := utf8 "Content-Length: 9\r\n\r\n"
  body_ne_nil := by decide
  length_lt := by decide

/- Its body is read back, from this frame and from the server's. -/
theorem readAllWithin_roundTrip_imitation :
    maxLength < Word.size64 ∧
      readAllWithin maxLength
          ([imitation.body, utf8 "\n"].flatMap encode) =
        ⟨[imitation.body, utf8 "\n"], [], .incomplete⟩ ∧
        readAllWithin maxLength
            ([imitation, imitation].flatMap Sent.bytes) =
          ⟨[imitation.body, imitation.body], [], .incomplete⟩ := by
  have hFits : maxLength < Word.size64 := by decide
  have hBoth := readAllWithin_roundTrip hFits
  refine ⟨hFits, ?_, ?_⟩
  · exact hBoth.1 [imitation.body, utf8 "\n"] (by decide)
  · exact hBoth.2 [imitation, imitation] (by decide)

end Frame

end Marginalia

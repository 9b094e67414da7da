import Mathlib.Data.List.TakeWhile
import Marginalia.Proofs.Text
import Marginalia.Server.Incoming

/-
  This file says which frames are correct, and proves that a
  stream of correct frames is read frame by frame.

  A correct frame has any header lines, the last length among
  them being that of its body, which is not empty.

  Key definitions include:
    * `Frame.Written`, `Frame.Written.bytes`
    * `Frame.Written.ofBody`
  The main statements are:
    * `Frame.decode_written`
    * `Incoming.ofStream_written`
    * `Incoming.ofStream_encoded`
-/

namespace Marginalia

namespace Frame

------------------------------------------------------------
-- Correct Frames
------------------------------------------------------------

/- The bytes of lines that end in line feeds. -/
def linesOf (lines : List Bytes) : Bytes :=
  lines.flatMap (fun line => line ++ [Ascii.lf])

/- What header lines say. -/
def Header.ofLines (lines : List Bytes) : Header :=
  lines.foldl (fun header line =>
    header.addLine (Document.dropReturn line)) Header.blank

/- A line that is not about the length changes nothing. -/
theorem Header.addLine_of_not_length
    {line : Bytes}
    (hLine : lengthField.isPrefixOf line = false)
    (header : Header) :
    header.addLine line = header := by
  simp [addLine, hLine]

/- Neither do many such lines. -/
theorem Header.foldl_addLine_of_not_length
    (lines : List Bytes)
    (hLines :
      ∀ line ∈ lines,
        lengthField.isPrefixOf (Document.dropReturn line) = false)
    (header : Header) :
    lines.foldl (fun header line =>
        header.addLine (Document.dropReturn line)) header =
      header := by
  induction lines with
  | nil => rfl
  | cons line lines ih =>
      have hRest :
          ∀ other ∈ lines,
            lengthField.isPrefixOf (Document.dropReturn other) =
              false :=
        fun other hOther =>
          hLines other (List.mem_cons_of_mem line hOther)
      rw [List.foldl_cons,
        addLine_of_not_length (hLines line List.mem_cons_self),
        ih hRest]

/-
  A correct frame: header lines, which may end in carriage
  returns but are not empty, an empty line, and a body that has
  the length of the header and can be held.
-/
structure Written where
  lines : List Bytes
  blank : Bytes
  body : Bytes
  lf_not_mem : ∀ line ∈ lines, Ascii.lf ∉ line
  line_ne_nil : ∀ line ∈ lines, Document.dropReturn line ≠ []
  lf_not_mem_blank : Ascii.lf ∉ blank
  blank_eq_nil : Document.dropReturn blank = []
  length_eq : (Header.ofLines lines).length = body.length
  body_ne_nil : body ≠ []
  length_le : body.length ≤ maxLength

namespace Written

/- What the header of a frame says. -/
def header (frame : Written) : Header :=
  Header.ofLines frame.lines

/- The bytes of a frame. -/
def bytes (frame : Written) : Bytes :=
  linesOf frame.lines ++ frame.blank ++ Ascii.lf :: frame.body

end Written

/- A frame whose lines end in carriage returns. -/
example : Written :=
  { lines :=
      [utf8 "Content-Type: text\r", utf8 "Content-Length: 2\r"]
    blank := utf8 "\r"
    body := utf8 "[]"
    lf_not_mem := by decide
    line_ne_nil := by decide
    lf_not_mem_blank := by decide
    blank_eq_nil := by decide
    length_eq := by decide
    body_ne_nil := by decide
    length_le := by decide }

------------------------------------------------------------
-- Reading Headers
------------------------------------------------------------

/- A line ends at its line feed. -/
theorem takeWhile_line
    {line : Bytes}
    (hLine : Ascii.lf ∉ line)
    (rest : Bytes) :
    (line ++ Ascii.lf :: rest).takeWhile (· != Ascii.lf) = line := by
  rw [List.takeWhile_append_of_pos]
  · simp
  · intro b hMember
    have hDiffer : b ≠ Ascii.lf := by
      intro hSame
      rw [hSame] at hMember
      exact hLine hMember
    simpa using hDiffer

/- After a line comes what follows its line feed. -/
theorem afterLine?_line
    {line : Bytes}
    (hLine : Ascii.lf ∉ line)
    (rest : Bytes) :
    afterLine? (line ++ Ascii.lf :: rest) = some rest := by
  have hDrop :
      (line ++ Ascii.lf :: rest).dropWhile (· != Ascii.lf) =
        Ascii.lf :: rest := by
    rw [List.dropWhile_append_of_pos]
    · simp
    · intro b hMember
      have hDiffer : b ≠ Ascii.lf := by
        intro hSame
        rw [hSame] at hMember
        exact hLine hMember
      simpa using hDiffer
  rw [afterLine?, hDrop]

/- A header is read up to an empty line. -/
theorem readHeader_blank
    {blank : Bytes}
    (hBlank : Ascii.lf ∉ blank)
    (hEmpty : Document.dropReturn blank = [])
    (header : Header)
    (rest : Bytes) :
    readHeader header (blank ++ Ascii.lf :: rest) =
      (header, some rest) := by
  unfold readHeader
  dsimp only
  rw [takeWhile_line hBlank]
  split
  · next hAfter =>
      rw [afterLine?_line hBlank] at hAfter
      cases hAfter
  · next after hAfter =>
      rw [afterLine?_line hBlank] at hAfter
      cases hAfter
      simp [hEmpty]

/- A line that is not empty is added to the header. -/
theorem readHeader_line
    {line : Bytes}
    (hLine : Ascii.lf ∉ line)
    (hNonempty : Document.dropReturn line ≠ [])
    (header : Header)
    (rest : Bytes) :
    readHeader header (line ++ Ascii.lf :: rest) =
      readHeader (header.addLine (Document.dropReturn line)) rest := by
  rw [readHeader, takeWhile_line hLine]
  split
  · next hAfter =>
      rw [afterLine?_line hLine] at hAfter
      cases hAfter
  · next after hAfter =>
      rw [afterLine?_line hLine] at hAfter
      cases hAfter
      simp [hNonempty]

/- All lines before the empty one are added to the header. -/
theorem readHeader_linesOf
    {blank : Bytes}
    (hBlank : Ascii.lf ∉ blank)
    (hEmpty : Document.dropReturn blank = [])
    (rest : Bytes)
    (lines : List Bytes) :
    ∀ header : Header,
      (∀ line ∈ lines, Ascii.lf ∉ line) →
        (∀ line ∈ lines, Document.dropReturn line ≠ []) →
          readHeader header
              (linesOf lines ++ blank ++ Ascii.lf :: rest) =
            (lines.foldl (fun header line =>
              header.addLine (Document.dropReturn line)) header,
              some rest) := by
  induction lines with
  | nil =>
      intro header _ _
      exact readHeader_blank hBlank hEmpty header rest
  | cons line lines ih =>
      intro header hLines hNonempty
      have hSplit :
          linesOf (line :: lines) ++ blank ++ Ascii.lf :: rest =
            line ++ Ascii.lf ::
              (linesOf lines ++ blank ++ Ascii.lf :: rest) := by
        simp [linesOf]
      rw [hSplit,
        readHeader_line (hLines line List.mem_cons_self)
          (hNonempty line List.mem_cons_self)]
      apply ih
      · intro other hOther
        exact hLines other (List.mem_cons_of_mem line hOther)
      · intro other hOther
        exact hNonempty other (List.mem_cons_of_mem line hOther)

------------------------------------------------------------
-- Reading Frames
------------------------------------------------------------

/- After a header with its length comes a body that can be held. -/
theorem decodeWithin_body
    {limit : Nat}
    {s body rest : Bytes}
    {header : Header}
    (hHeader :
      readHeader Header.blank s = (header, some (body ++ rest)))
    (hLength : header.length = body.length)
    (hBody : body ≠ [])
    (hHeld : body.length ≤ limit) :
    decodeWithin limit s = (.body body rest, header.faults) := by
  have hPositive : 0 < body.length :=
    List.length_pos_iff.mpr hBody
  unfold decodeWithin
  rw [hHeader]
  dsimp only
  rw [hLength, if_neg (by omega), if_neg (by omega),
    if_neg (by simp)]
  simp

/- A header without a length ends the conversation. -/
theorem decodeWithin_closed
    {limit : Nat}
    {s rest : Bytes}
    {header : Header}
    (hHeader : readHeader Header.blank s = (header, some rest))
    (hLength : header.length = 0) :
    decodeWithin limit s = (.closed, header.faults) := by
  unfold decodeWithin
  rw [hHeader]
  dsimp only
  rw [if_pos hLength]

/- No body is read that is too long to be held. -/
theorem decodeWithin_overlong
    {limit : Nat}
    {s rest : Bytes}
    {header : Header}
    (hHeader : readHeader Header.blank s = (header, some rest))
    (hLong : limit < header.length) :
    decodeWithin limit s = (.overlong rest, header.faults) := by
  unfold decodeWithin
  rw [hHeader]
  dsimp only
  rw [if_neg (by omega), if_pos hLong]

/- A correct frame is read as its body, and leaves what follows it. -/
theorem decode_written
    (frame : Written)
    (rest : Bytes) :
    decode (frame.bytes ++ rest) =
      (.body frame.body rest, frame.header.faults) := by
  have hHeader :
      readHeader Header.blank (frame.bytes ++ rest) =
        (frame.header, some (frame.body ++ rest)) := by
    have hRead :=
      readHeader_linesOf frame.lf_not_mem_blank frame.blank_eq_nil
        (frame.body ++ rest) frame.lines Header.blank
        frame.lf_not_mem frame.line_ne_nil
    have hBytes :
        frame.bytes ++ rest =
          linesOf frame.lines ++ frame.blank ++
            Ascii.lf :: (frame.body ++ rest) := by
      simp [Written.bytes]
    rw [hBytes]
    exact hRead
  exact
    decodeWithin_body hHeader frame.length_eq frame.body_ne_nil
      frame.length_le

------------------------------------------------------------
-- Frames of Bodies
------------------------------------------------------------

/- A digit is no white space. -/
theorem isSpace_of_isDigit
    {b : UInt8}
    (hDigit : Ascii.isDigit b = true) :
    Ascii.isSpace b = false := by
  have hRange := Ascii.toNat_of_isDigit hDigit
  simp only [Ascii.isSpace, Bool.or_eq_false_iff,
    Bool.and_eq_false_iff, beq_eq_false_iff_ne,
    decide_eq_false_iff_not, UInt8.le_iff_toNat_le]
  constructor
  · intro hSame
    rw [hSame] at hRange
    exact absurd hRange.1 (by decide)
  · right
    intro hLe
    have hSmall : Ascii.cr.toNat = 13 := rfl
    omega

/- The digits of a length are read as that length. -/
theorem parseLength?_ofNat
    {n : Nat}
    (hFits : n < Word.size64) :
    parseLength? (Ascii.space :: Decimal.ofNat n) = some n := by
  have hAll : ∀ b ∈ Decimal.ofNat n, Ascii.isDigit b = true :=
    fun b hMember => Decimal.isDigit_of_mem_ofNat hMember
  have hValue := Decimal.value_ofNat n
  cases hDigits : Decimal.ofNat n with
  | nil => exact absurd hDigits (Decimal.ofNat_ne_nil n)
  | cons d rest =>
      rw [hDigits] at hAll hValue
      have hFirst := hAll d List.mem_cons_self
      have hDrop :
          (Ascii.space :: d :: rest).dropWhile Ascii.isSpace =
            d :: rest := by
        rw [List.dropWhile_cons_of_pos rfl,
          List.dropWhile_cons_of_neg
            (by simp [isSpace_of_isDigit hFirst])]
      have hTake :
          (d :: rest).takeWhile Ascii.isDigit = d :: rest :=
        List.takeWhile_eq_self_iff.mpr hAll
      have hRange := Ascii.toNat_of_isDigit hFirst
      unfold parseLength?
      rw [hDrop]
      split
      next negative digits hSign =>
        split at hSign
        · next hMinus =>
            have hSame := (List.cons.inj hMinus).1
            rw [hSame] at hRange
            exact absurd hRange.1 (by decide)
        · next hPlus =>
            have hSame := (List.cons.inj hPlus).1
            rw [hSame] at hRange
            exact absurd hRange.1 (by decide)
        · have hBoth := Prod.mk.inj hSign
          rw [← hBoth.1, ← hBoth.2, hTake]
          simp [hValue, hFits]

/- The header line that says a length. -/
def lengthLine (n : Nat) : Bytes :=
  lengthField ++ Ascii.space :: Decimal.ofNat n

/- There is no line feed among digits. -/
theorem lf_not_mem_ofNat
    (n : Nat) :
    Ascii.lf ∉ Decimal.ofNat n := by
  intro hMember
  have hDigit := Decimal.isDigit_of_mem_ofNat hMember
  exact absurd hDigit (by decide)

/- There is no line feed in the line of a length. -/
theorem lf_not_mem_lengthLine
    (n : Nat) :
    Ascii.lf ∉ lengthLine n ++ [Ascii.cr] := by
  have hDigits := lf_not_mem_ofNat n
  have hField : Ascii.lf ∉ lengthField := by decide
  have hSpace : Ascii.lf ≠ Ascii.space := by decide
  have hReturn : Ascii.lf ≠ Ascii.cr := by decide
  simp [lengthLine, hDigits, hField, hSpace, hReturn]

/- A carriage return at the end of a line is dropped. -/
theorem dropReturn_append
    (line : Bytes) :
    Document.dropReturn (line ++ [Ascii.cr]) = line := by
  simp [Document.dropReturn]

/- It says that length. -/
theorem addLine_lengthLine
    {n : Nat}
    (hFits : n < Word.size64)
    (header : Header) :
    header.addLine (lengthLine n) = { header with length := n } := by
  have hPrefix : lengthField.isPrefixOf (lengthLine n) = true := by
    simp [lengthLine]
  have hDrop :
      (lengthLine n).drop lengthField.length =
        Ascii.space :: Decimal.ofNat n := by
    simp [lengthLine]
  rw [Header.addLine, if_pos hPrefix, hDrop, parseLength?_ofNat hFits]

/- The header that announces a body of a length. -/
def announce (n : Nat) : Bytes :=
  lengthLine n ++ newline ++ newline

/- The frame that is written for a body is correct. -/
def Written.ofBody
    (body : Bytes)
    (hBody : body ≠ [])
    (hHeld : body.length ≤ maxLength) : Written where
  lines := [lengthLine body.length ++ [Ascii.cr]]
  blank := [Ascii.cr]
  body := body
  lf_not_mem := by
    simpa using lf_not_mem_lengthLine body.length
  line_ne_nil := by
    have hLine : lengthLine body.length ≠ [] := by
      simp [lengthLine]
    simpa [dropReturn_append] using hLine
  lf_not_mem_blank := by decide
  blank_eq_nil := rfl
  length_eq := by
    have hFits : body.length < Word.size64 :=
      Nat.lt_of_le_of_lt hHeld (by decide)
    simp [Header.ofLines, dropReturn_append, addLine_lengthLine hFits]
  body_ne_nil := hBody
  length_le := hHeld

/- Its bytes are those of the frame. -/
theorem Written.bytes_ofBody
    {body : Bytes}
    (hBody : body ≠ [])
    (hHeld : body.length ≤ maxLength) :
    (ofBody body hBody hHeld).bytes = encode body := by
  simp [bytes, ofBody, linesOf, encode, lengthLine, newline]

end Frame

------------------------------------------------------------
-- Reading Streams
------------------------------------------------------------

namespace Incoming

/- What arrives with a correct frame. -/
def ofWritten (frame : Frame.Written) : List Incoming :=
  List.replicate frame.header.faults .faultyLength ++
    [ofBody frame.body]

section

variable {s content rest : Bytes}
variable {faults : Nat}

/- A stream that begins with a body. -/
theorem ofStream_of_body
    (hDecode : Frame.decode s = (.body content rest, faults)) :
    ofStream s =
      List.replicate faults .faultyLength ++
        ofBody content :: ofStream rest := by
  rw [ofStream]
  split <;> simp_all

/- A stream that begins with a body too long to be held. -/
theorem ofStream_of_overlong
    (hDecode : Frame.decode s = (.overlong rest, faults)) :
    ofStream s =
      List.replicate faults .faultyLength ++
        .unreadable .overlong :: ofStream rest := by
  rw [ofStream]
  split <;> simp_all

/- A stream that is closed before anything is read. -/
theorem ofStream_of_closed
    (hDecode : Frame.decode s = (.closed, faults)) :
    ofStream s = List.replicate faults .faultyLength := by
  rw [ofStream]
  split <;> simp_all

/- A stream that ends before anything is read. -/
theorem ofStream_of_incomplete
    (hDecode : Frame.decode s = (.incomplete, faults)) :
    ofStream s = List.replicate faults .faultyLength := by
  rw [ofStream]
  split <;> simp_all

end

/- A stream with nothing in it. -/
theorem ofStream_nil :
    ofStream [] = [] := by
  have hDecode : Frame.decode [] = (.incomplete, 0) := by
    rw [Frame.decode, Frame.decodeWithin, Frame.readHeader]
    rfl
  rw [ofStream_of_incomplete hDecode]
  rfl

/- A stream that begins with a correct frame. -/
theorem ofStream_append
    (frame : Frame.Written)
    (rest : Bytes) :
    ofStream (frame.bytes ++ rest) =
      ofWritten frame ++ ofStream rest := by
  rw [ofStream_of_body (Frame.decode_written frame rest), ofWritten,
    List.append_assoc]
  rfl

/- A stream of correct frames is read frame by frame. -/
theorem ofStream_written
    (frames : List Frame.Written) :
    ofStream (frames.flatMap Frame.Written.bytes) =
      frames.flatMap ofWritten := by
  induction frames with
  | nil => exact ofStream_nil
  | cons frame frames ih =>
      rw [List.flatMap_cons, ofStream_append, ih, List.flatMap_cons]

/- The body of a frame that was written arrives. -/
theorem ofStream_encode
    {body : Bytes}
    (hBody : body ≠ [])
    (hHeld : body.length ≤ Frame.maxLength)
    (rest : Bytes) :
    ofStream (Frame.encode body ++ rest) =
      ofBody body :: ofStream rest := by
  let frame := Frame.Written.ofBody body hBody hHeld
  have hFits : body.length < Word.size64 :=
    Nat.lt_of_le_of_lt hHeld (by decide)
  have hHeader : frame.header = ⟨body.length, 0⟩ := by
    simp [frame, Frame.Written.header, Frame.Written.ofBody,
      Frame.Header.ofLines, Frame.dropReturn_append,
      Frame.addLine_lengthLine hFits, Frame.Header.blank]
  rw [← Frame.Written.bytes_ofBody hBody hHeld, ofStream_append,
    ofWritten, hHeader]
  rfl

/- A header whose body is too long to be held. -/
theorem ofStream_announce
    {n : Nat}
    (hLong : Frame.maxLength < n)
    (hFits : n < Word.size64)
    (rest : Bytes) :
    ofStream (Frame.announce n ++ rest) =
      .unreadable .overlong :: ofStream rest := by
  have hHeader :
      Frame.readHeader Frame.Header.blank (Frame.announce n ++ rest) =
        (⟨n, 0⟩, some rest) := by
    have hLine :
        Document.dropReturn (Frame.lengthLine n ++ [Ascii.cr]) ≠
          [] := by
      rw [Frame.dropReturn_append]
      simp [Frame.lengthLine]
    have hSplit :
        Frame.announce n ++ rest =
          (Frame.lengthLine n ++ [Ascii.cr]) ++
            Ascii.lf :: ([Ascii.cr] ++ Ascii.lf :: rest) := by
      simp [Frame.announce, Frame.newline]
    rw [hSplit,
      Frame.readHeader_line (Frame.lf_not_mem_lengthLine n) hLine,
      Frame.readHeader_blank (by decide) rfl,
      Frame.dropReturn_append, Frame.addLine_lengthLine hFits]
    rfl
  have hDecode :
      Frame.decode (Frame.announce n ++ rest) =
        (.overlong rest, 0) :=
    Frame.decodeWithin_overlong hHeader hLong
  rw [ofStream_of_overlong hDecode]
  rfl

/- The bodies of frames that were written arrive in order. -/
theorem ofStream_encoded_append
    {bodies : List Bytes}
    (hBodies :
      ∀ body ∈ bodies, body ≠ [] ∧ body.length ≤ Frame.maxLength)
    (rest : Bytes) :
    ofStream (bodies.flatMap Frame.encode ++ rest) =
      bodies.map ofBody ++ ofStream rest := by
  induction bodies with
  | nil => rfl
  | cons body bodies ih =>
      have hFirst := hBodies body List.mem_cons_self
      rw [List.flatMap_cons, List.append_assoc,
        ofStream_encode hFirst.1 hFirst.2, ih]
      · rfl
      · intro other hOther
        exact hBodies other (List.mem_cons_of_mem body hOther)

/- There may be nothing after them. -/
theorem ofStream_encoded
    {bodies : List Bytes}
    (hBodies :
      ∀ body ∈ bodies, body ≠ [] ∧ body.length ≤ Frame.maxLength) :
    ofStream (bodies.flatMap Frame.encode) = bodies.map ofBody := by
  have hAll := ofStream_encoded_append hBodies []
  rwa [List.append_nil, ofStream_nil, List.append_nil] at hAll

end Incoming

end Marginalia

import Marginalia.Proofs.Comment.Blocks
import Marginalia.Proofs.Comment.Content
import Marginalia.Proofs.Document.Offsets

/-
  This file proves that taking the text out of a comment loses and
  invents no words.  What the text and the span have in common is
  read off by deleting some bytes from both: the blanks, and the
  bytes that the marks of a comment are made of.

  Each step that takes something away is compared on the bytes that
  are kept.  Such a step puts blanks in the place of bytes that are
  deleted, so it does not change what is kept, and the steps can be
  put one after the other in any way.

  Key definitions include:
    * `Marker.isMarkByte`
    * `Extract.KeepsWords`
  The main statements are:
    * `Marker.filter_stripLine`
    * `Marker.filter_stripBlock`
    * `Extract.filter_joinLines`
    * `Extract.filter_content`
    * `TokenizedDocument.text_keeps_words`
-/

namespace Marginalia

------------------------------------------------------------
-- Pieces of a Text
------------------------------------------------------------

namespace Bytes

variable {keep : UInt8 → Bool}

/- Nothing is kept of bytes that are all deleted. -/
theorem filter_eq_nil_of_forall
    {s : Bytes}
    (hDeleted : ∀ b ∈ s, keep b = false) :
    s.filter keep = [] := by
  rw [List.filter_eq_nil_iff]
  exact fun b hByte => Bool.eq_false_iff.mp (hDeleted b hByte)

/- The front of a text and the rest are kept one after the other. -/
theorem filter_takeWhile_append
    (test : UInt8 → Bool)
    (s : Bytes) :
    (s.takeWhile test).filter keep ++ (s.dropWhile test).filter keep =
      s.filter keep := by
  rw [← List.filter_append, List.takeWhile_append_dropWhile]

/- Dropping deleted bytes from the front changes nothing. -/
theorem filter_dropWhile
    {deleted : UInt8 → Bool}
    (hDeleted : ∀ b, deleted b = true → keep b = false)
    (s : Bytes) :
    (s.dropWhile deleted).filter keep = s.filter keep := by
  have hFront : (s.takeWhile deleted).filter keep = [] :=
    filter_eq_nil_of_forall
      (fun b hByte => hDeleted b (List.mem_takeWhile_imp hByte))
  rw [← filter_takeWhile_append deleted s, hFront, List.nil_append]

/- Trimming changes nothing if blanks are deleted. -/
theorem filter_trim
    (hBlank : ∀ b, Ascii.isBlank b = true → keep b = false)
    (s : Bytes) :
    (trim s).filter keep = s.filter keep := by
  unfold trim trimEnd
  rw [List.filter_reverse, filter_dropWhile hBlank, List.filter_reverse,
    List.reverse_reverse, filter_dropWhile hBlank]

/- Joining changes nothing if the separator is deleted. -/
theorem filter_join
    {separator : Bytes}
    (hSeparator : separator.filter keep = []) :
    ∀ pieces : List Bytes,
      (join separator pieces).filter keep =
        pieces.flatMap (List.filter keep)
| [] => rfl
| [piece] => by simp [join]
| piece :: next :: pieces => by
    rw [join, List.filter_append, List.filter_append, hSeparator,
      List.append_nil, filter_join hSeparator (next :: pieces),
      List.flatMap_cons (x := piece)]

/- Splitting changes nothing if line feeds are deleted. -/
theorem flatMap_splitLines
    (hLf : keep Ascii.lf = false)
    (s : Bytes) :
    (splitLines s).flatMap (List.filter keep) = s.filter keep := by
  have hSeparator : [Ascii.lf].filter keep = [] :=
    filter_eq_nil_of_forall (by simpa using hLf)
  rw [← filter_join hSeparator, join_splitLines]

end Bytes

------------------------------------------------------------
-- Marks
------------------------------------------------------------

namespace Marker

/- The bytes that the marks of a comment are made of. -/
def isMarkByte (b : UInt8) : Bool :=
  [Ascii.slash, Ascii.bang, Ascii.hash, Ascii.percent,
    Ascii.semicolon, Ascii.minus, Ascii.star, Ascii.less,
    Ascii.greater, Ascii.lbrace, Ascii.rbrace].contains b

variable {keep : UInt8 → Bool}
variable {s : Bytes}

/-
  A mark that is some bytes and a run of another one is made of
  these.
-/
theorem isMarkByte_of_mem_run
    {a b : UInt8}
    {rest : Bytes}
    (front : Bytes)
    (hMarks : (a :: front).all isMarkByte = true)
    (hByte : b ∈ (front ++ rest).take (front.length + runLength a rest)) :
    isMarkByte b = true := by
  have hAll := List.all_eq_true.mp hMarks
  rw [List.take_length_add_append, List.mem_append] at hByte
  rcases hByte with hFront | hRun
  · exact hAll b (List.mem_cons_of_mem a hFront)
  · unfold runLength at hRun
    rw [← List.prefix_iff_eq_take.mp (List.takeWhile_prefix _)] at hRun
    have hSame : (b == a) = true :=
      List.mem_takeWhile_imp (p := (· == a)) hRun
    rw [beq_iff_eq.mp hSame]
    exact hAll a List.mem_cons_self

/- The mark that a line comment begins with is made of mark bytes. -/
theorem isMarkByte_of_mem_lineMark
    {b : UInt8}
    (hByte : b ∈ s.take (lineMark s)) :
    isMarkByte b = true := by
  unfold lineMark at hByte
  split at hByte
  · next rest =>
      rw [Nat.add_comm, List.take_succ_cons, List.take_succ_cons,
        ← List.prefix_iff_eq_take.mp (List.takeWhile_prefix _),
        List.mem_cons, List.mem_cons] at hByte
      rcases hByte with rfl | rfl | hRun
      · rfl
      · rfl
      · have hTest :=
          List.mem_takeWhile_imp
            (p := fun b => b == Ascii.slash || b == Ascii.bang) hRun
        rw [Bool.or_eq_true, beq_iff_eq, beq_iff_eq] at hTest
        rcases hTest with rfl | rfl <;> rfl
  · next rest =>
      dsimp only at hByte
      rw [Nat.add_sub_cancel_left] at hByte
      split at hByte
      · next tail hBang =>
          -- What comes behind the run is the bang.
          rw [List.take_add, List.mem_append, Nat.add_comm 1,
            List.drop_succ_cons, hBang] at hByte
          rcases hByte with hRun | hBang
          · rw [Nat.add_comm] at hRun
            exact isMarkByte_of_mem_run [Ascii.hash] rfl hRun
          · rw [List.mem_singleton.mp hBang]
            rfl
      · exact isMarkByte_of_mem_run [Ascii.hash] rfl hByte
  · exact isMarkByte_of_mem_run [Ascii.percent] rfl hByte
  · exact isMarkByte_of_mem_run [Ascii.semicolon] rfl hByte
  · exact isMarkByte_of_mem_run [Ascii.minus, Ascii.minus] rfl hByte
  · cases hByte

/- So is the mark that a block comment begins with. -/
theorem isMarkByte_of_mem_openMark
    {b : UInt8}
    (hByte : b ∈ s.take (openMark s)) :
    isMarkByte b = true := by
  unfold openMark at hByte
  split at hByte
  · exact
      isMarkByte_of_mem_run
        [Ascii.less, Ascii.bang, Ascii.minus, Ascii.minus] rfl hByte
  · exact isMarkByte_of_mem_run [Ascii.slash, Ascii.star] rfl hByte
  · have hBoth : b ∈ [Ascii.lbrace, Ascii.minus] := hByte
    exact List.all_eq_true.mp rfl b hBoth
  · cases hByte

/- So is, read backwards, the mark that it ends with. -/
theorem isMarkByte_of_mem_closeMarkReversed
    {b : UInt8}
    (hByte : b ∈ s.take (closeMarkReversed s)) :
    isMarkByte b = true := by
  unfold closeMarkReversed at hByte
  split at hByte
  · exact
      isMarkByte_of_mem_run [Ascii.greater, Ascii.minus, Ascii.minus] rfl
        hByte
  · exact isMarkByte_of_mem_run [Ascii.slash, Ascii.star] rfl hByte
  · have hBoth : b ∈ [Ascii.rbrace, Ascii.minus] := hByte
    exact List.all_eq_true.mp rfl b hBoth
  · cases hByte

/- Spaces are blanks. -/
theorem filter_replicate_space
    (hBlank : ∀ b, Ascii.isBlank b = true → keep b = false)
    (n : Nat) :
    (List.replicate n Ascii.space).filter keep = [] := by
  refine Bytes.filter_eq_nil_of_forall ?_
  intro b hByte
  rw [List.eq_of_mem_replicate hByte]
  exact hBlank Ascii.space rfl

/- Flattening tabs only changes blanks. -/
theorem filter_flattenTabs
    (hBlank : ∀ b, Ascii.isBlank b = true → keep b = false)
    (s : Bytes) :
    (flattenTabs s).filter keep = s.filter keep := by
  induction s with
  | nil => rfl
  | cons b rest ih =>
      unfold flattenTabs
      split
      · next hTab =>
          have hGone : keep b = false := by
            apply hBlank
            rcases hTab with rfl | rfl <;> rfl
          rw [List.filter_cons_of_neg
              (Bool.eq_false_iff.mp (hBlank Ascii.space rfl)),
            List.filter_cons_of_neg (Bool.eq_false_iff.mp hGone), ih]
      · rfl

/- Making deleted bytes blank changes nothing. -/
theorem filter_blank
    {n : Nat}
    (hBlank : ∀ b, Ascii.isBlank b = true → keep b = false)
    (hMark : ∀ b ∈ s.take n, keep b = false) :
    (blank n s).filter keep = s.filter keep := by
  unfold blank
  rw [List.filter_append, filter_replicate_space hBlank,
    ← Bytes.filter_eq_nil_of_forall hMark, ← List.filter_append,
    List.take_append_drop]

/- Taking the mark of a line comment away changes nothing. -/
theorem filter_stripLine
    (hBlank : ∀ b, Ascii.isBlank b = true → keep b = false)
    (hMark : ∀ b, isMarkByte b = true → keep b = false)
    (s : Bytes) :
    (stripLine s).filter keep = s.filter keep := by
  have hRest :=
    filter_blank (s := s.dropWhile Ascii.isBlank) hBlank
      (fun b hByte => hMark b (isMarkByte_of_mem_lineMark hByte))
  unfold blank at hRest
  rw [List.filter_append] at hRest
  unfold stripLine
  dsimp only
  rw [List.filter_append, List.filter_append, filter_flattenTabs hBlank,
    List.append_assoc, hRest, Bytes.filter_takeWhile_append]

/- Making a mark blank behind the leading blanks changes nothing. -/
theorem filter_blankAfterLead
    {mark : Bytes → Nat}
    (hBlank : ∀ b, Ascii.isBlank b = true → keep b = false)
    (hMark : ∀ (rest : Bytes), ∀ b ∈ rest.take (mark rest), keep b = false)
    (s : Bytes) :
    (blankAfterLead mark s).filter keep = s.filter keep := by
  unfold blankAfterLead
  dsimp only
  rw [List.filter_append, filter_blank hBlank (hMark _),
    Bytes.filter_takeWhile_append]

/- Making a star at the front blank changes nothing. -/
theorem filter_stripStar
    (hBlank : ∀ b, Ascii.isBlank b = true → keep b = false)
    (hStar : keep Ascii.star = false)
    (s : Bytes) :
    (stripStar s).filter keep = s.filter keep := by
  induction s with
  | nil => rfl
  | cons b rest ih =>
      unfold stripStar
      split
      · rw [List.filter_cons, List.filter_cons, ih]
      · split
        · next hSame =>
            rw [hSame, List.filter_cons_of_neg
                (Bool.eq_false_iff.mp (hBlank Ascii.space rfl)),
              List.filter_cons_of_neg (Bool.eq_false_iff.mp hStar)]
        · rfl

/- Taking the stars at the end away changes nothing. -/
theorem filter_stripTrailingStars
    (hStar : keep Ascii.star = false)
    (s : Bytes) :
    (stripTrailingStars s).filter keep = s.filter keep := by
  have hStars :
      ∀ b, (b == Ascii.star) = true → keep b = false := by
    intro b hSame
    rw [beq_iff_eq.mp hSame]
    exact hStar
  unfold stripTrailingStars
  dsimp only
  split
  · rw [List.filter_reverse, List.filter_append,
      Bytes.filter_dropWhile hStars, Bytes.filter_takeWhile_append,
      List.filter_reverse, List.reverse_reverse]
  · rfl

/- Taking the marks of a block comment away changes nothing. -/
theorem filter_stripBlock
    (hBlank : ∀ b, Ascii.isBlank b = true → keep b = false)
    (hMark : ∀ b, isMarkByte b = true → keep b = false)
    (hLf : keep Ascii.lf = false)
    (s : Bytes) :
    (stripBlock s).filter keep = s.filter keep := by
  have hSeparator : [Ascii.lf].filter keep = [] :=
    Bytes.filter_eq_nil_of_forall (by simpa using hLf)
  unfold stripBlock
  dsimp only
  rw [Bytes.filter_join hSeparator, List.flatMap_map]
  simp only [filter_stripStar hBlank (hMark Ascii.star rfl)]
  rw [Bytes.flatMap_splitLines hLf, List.filter_reverse,
    filter_blankAfterLead hBlank
      (fun _ b hByte => hMark b (isMarkByte_of_mem_closeMarkReversed hByte)),
    List.filter_reverse, List.reverse_reverse,
    filter_blankAfterLead hBlank
      (fun _ b hByte => hMark b (isMarkByte_of_mem_openMark hByte))]

end Marker

------------------------------------------------------------
-- The Lines of a Comment
------------------------------------------------------------

namespace Extract

variable {keep : UInt8 → Bool}

/- Trimming and joining lines changes nothing. -/
theorem filter_joinLines
    (hBlank : ∀ b, Ascii.isBlank b = true → keep b = false)
    (lines : List Bytes) :
    (joinLines lines).filter keep = lines.flatMap (List.filter keep) := by
  have hSeparator : [Ascii.space].filter keep = [] :=
    Bytes.filter_eq_nil_of_forall (by simpa using hBlank Ascii.space rfl)
  unfold joinLines
  rw [Bytes.filter_join hSeparator]
  induction lines with
  | nil => rfl
  | cons line lines ih =>
      rw [List.map_cons, List.filter_cons, List.flatMap_cons, ← ih,
        ← Bytes.filter_trim hBlank line]
      split
      · rw [List.flatMap_cons]
      · next hEmpty =>
          have hNil : line.trim = [] := by simpa using hEmpty
          rw [hNil]
          rfl

/- Changing the last line by taking deleted bytes away changes nothing. -/
theorem flatMap_onLast
    {f : Bytes → Bytes}
    (hSame : ∀ s, (f s).filter keep = s.filter keep) :
    ∀ lines : List Bytes,
      (onLast f lines).flatMap (List.filter keep) =
        lines.flatMap (List.filter keep)
| [] => rfl
| [line] => by simp [onLast, hSame]
| line :: next :: lines => by
    rw [onLast, List.flatMap_cons, flatMap_onLast hSame (next :: lines),
      ← List.flatMap_cons]

variable {parts : List LinePart}
variable {scope : Scope}

/- Without marks that the grammar tells, the lines as they are count. -/
theorem flatMap_strip_of_not_marked
    (hBlank : ∀ b, Ascii.isBlank b = true → keep b = false)
    (hMark : ∀ b, Marker.isMarkByte b = true → keep b = false)
    (hLf : keep Ascii.lf = false)
    (hUnmarked : parts.any LinePart.marked = false) :
    (strip scope parts).flatMap (List.filter keep) =
      parts.flatMap (fun p => p.raw.filter keep) := by
  unfold strip
  dsimp only
  rw [hUnmarked, if_neg Bool.false_ne_true]
  split
  · rw [List.flatMap_map, List.flatMap_map]
    simp only [Marker.filter_stripLine hBlank hMark]
  · have hSeparator : [Ascii.lf].filter keep = [] :=
      Bytes.filter_eq_nil_of_forall (by simpa using hLf)
    rw [Bytes.flatMap_splitLines hLf,
      Marker.filter_stripBlock hBlank hMark hLf,
      Bytes.filter_join hSeparator, List.flatMap_map]

/- With such marks, the lines with spaces for them count. -/
theorem flatMap_strip_of_marked
    (hBlank : ∀ b, Ascii.isBlank b = true → keep b = false)
    (hStar : scope.isLineComment = false → keep Ascii.star = false)
    (hMarked : parts.any LinePart.marked = true) :
    (strip scope parts).flatMap (List.filter keep) =
      parts.flatMap (fun p => p.content.filter keep) := by
  unfold strip
  dsimp only
  rw [if_pos hMarked]
  split
  · rw [List.flatMap_map]
  · next hBlock =>
      have hGone := hStar (Bool.eq_false_iff.mpr hBlock)
      rw [flatMap_onLast (Marker.filter_stripTrailingStars hGone),
        List.flatMap_map, List.flatMap_map]
      simp only [Marker.filter_stripStar hBlank hGone]

end Extract
------------------------------------------------------------
-- Words
------------------------------------------------------------

namespace Extract

variable {keep : UInt8 → Bool}
variable {lines : Array Bytes}
variable {tokens : Nat → List Token}
variable {span : CommentSpan}

/-
  The content of a line is kept as its bytes between the columns,
  without those of marks.
-/
theorem filter_content
    {text : Bytes}
    {ts : List Token}
    (hBlank : ∀ b, Ascii.isBlank b = true → keep b = false)
    (hPartition : Tokens.Partition text.length ts)
    (start stop : Nat) :
    (ts.flatMap (tokenContent text start stop)).filter keep =
      (CommentSpan.lineBytes
          (fun column =>
            (decide (start ≤ column) && decide (column < stop)) &&
              !CommentSpan.marksAt ts column)
          text).filter
        keep := by
  unfold CommentSpan.lineBytes
  rw [content_eq_slice hPartition, slice_shown]
  induction text.zipIdx with
  | nil => rfl
  | cons item items ih =>
      cases hColumn :
          decide (start ≤ item.2) && decide (item.2 < stop) with
      | false =>
          rw [List.filter_cons_of_neg (by simp [hColumn]),
            List.filter_cons_of_neg (by simp [hColumn])]
          exact ih
      | true =>
          rw [List.filter_cons_of_pos (by exact hColumn), List.map_cons,
            List.filter_cons, ih]
          cases hMark : CommentSpan.marksAt ts item.2 with
          | true =>
              rw [if_pos rfl, hBlank Ascii.space rfl,
                if_neg Bool.false_ne_true,
                List.filter_cons_of_neg (by simp [hMark])]
          | false =>
              rw [if_neg Bool.false_ne_true,
                List.filter_cons_of_pos (by simp [hColumn, hMark]),
                List.map_cons, List.filter_cons]

/- Without those of marks, they are kept as the content of its parts. -/
theorem filter_unmarkedBytes
    (hBlank : ∀ b, Ascii.isBlank b = true → keep b = false)
    (hTokens : Tokens.Partitioned lines tokens)
    (span : CommentSpan) :
    (span.unmarkedBytes lines tokens).filter keep =
      (allParts lines tokens span).flatMap
        (fun p => p.content.filter keep) := by
  unfold allParts CommentSpan.unmarkedBytes
  rw [eval_parts_eq_map, List.flatMap_map, flatMap_range_eq,
    List.filter_flatMap]
  · refine List.flatMap_congr ?_
    intro l hLine
    rw [List.mem_range'_1] at hLine
    unfold lineCount at hLine
    have hSame :
        ∀ column < (lines.getD l []).length,
          (span.contains l column &&
              !CommentSpan.marksAt (tokens l) column) =
            ((decide
                    ((columns span l (lines.getD l [])).1 ≤ column) &&
                  decide
                    (column < (columns span l (lines.getD l [])).2)) &&
                !CommentSpan.marksAt (tokens l) column) := by
      intro column hColumn
      rw [CommentSpan.contains_eq_columns hLine.1 (by omega) hColumn]
    rw [CommentSpan.lineBytes_congr hSame,
      ← filter_content hBlank (hTokens l (by omega))]
    rfl
  · intro l hOther
    refine CommentSpan.lineBytes_of_none ?_ _
    intro column
    rw [CommentSpan.contains_eq_false hOther, Bool.false_and]

/-
  A text has the words of some bytes if the same is left of both
  once some bytes are deleted.  Without a text, nothing is left.
-/
def KeepsWords
    (deleted : UInt8 → Bool)
    (bytes : Bytes) : Option Bytes → Prop
| some text =>
    text.filter (fun b => !deleted b) =
      bytes.filter (fun b => !deleted b)
| none => bytes.filter (fun b => !deleted b) = []

/- Line feeds can be deleted from a text that has none. -/
theorem filter_and_ne_lf
    {s : Bytes}
    (hLf : Ascii.lf ∉ s)
    (keep : UInt8 → Bool) :
    s.filter (fun b => keep b && b != Ascii.lf) = s.filter keep := by
  refine List.filter_congr ?_
  intro b hByte
  have hOther : b ≠ Ascii.lf := fun hSame => hLf (hSame ▸ hByte)
  rw [bne_iff_ne.mpr hOther, Bool.and_true]

/-
  The text of a span has the words of some bytes if its lines
  without marks have.
-/
theorem keepsWords_of_strip
    {scope : Scope}
    {deleted : UInt8 → Bool}
    {bytes : Bytes}
    (hLines : ∀ line : Nat, Ascii.lf ∉ lines.getD line [])
    (hBytes : Ascii.lf ∉ bytes)
    (hBlank : ∀ b, Ascii.isBlank b = true → deleted b = true)
    (hStrip :
      ∀ keep : UInt8 → Bool,
        (∀ b, deleted b = true → keep b = false) →
          keep Ascii.lf = false →
            (strip scope (allParts lines tokens span)).flatMap
                (List.filter keep) =
              bytes.filter keep) :
    KeepsWords deleted bytes ((text? lines span scope).eval tokens) := by
  have hNone :
      Ascii.lf ∉ joinLines (strip scope (allParts lines tokens span)) :=
    lf_not_mem_joinLines
      (lf_not_mem_strip scope (oneLine_parts tokens span hLines _ _))
  -- Some lines are split at line feeds, so those are deleted as well.
  have hJoined :=
    @filter_joinLines (fun b => !deleted b && b != Ascii.lf)
      (fun b hIs => by simp [hBlank b hIs])
      (strip scope (allParts lines tokens span))
  rw [hStrip _ (fun b hIs => by simp [hIs]) (by simp),
    filter_and_ne_lf hBytes, filter_and_ne_lf hNone] at hJoined
  rw [eval_text?_eq]
  split
  · next hEmpty =>
      rw [List.isEmpty_iff.mp hEmpty] at hJoined
      exact hJoined.symm
  · exact hJoined

/- A byte that is taken from a line is one of the line. -/
theorem lf_not_mem_bytes
    {lines : Array Bytes}
    (hLines : ∀ line : Nat, Ascii.lf ∉ lines.getD line [])
    (takes : Nat → Nat → Bool) :
    Ascii.lf ∉
      (List.range lines.size).flatMap
        (fun line =>
          CommentSpan.lineBytes (takes line) (lines.getD line [])) := by
  intro hByte
  rcases List.mem_flatMap.mp hByte with ⟨line, _, hIn⟩
  rcases List.mem_map.mp hIn with ⟨⟨b, column⟩, hItem, rfl⟩
  exact
    hLines line (List.fst_mem_of_mem_zipIdx (List.mem_filter.mp hItem).1)

end Extract

------------------------------------------------------------
-- Tokenized Documents
------------------------------------------------------------

/-
  For every grammar and document, however much of it is tokenized
  before the question, for every span and scope, also where the
  span is reversed or goes past the document:

  The text that is taken out of the span and the bytes of the span
  are the same but for blanks and marks.  Where the grammar tells
  the marks, these are the tokens of marks, and the stars too in a
  block comment.  Elsewhere they are all bytes that marks are made
  of.
-/
theorem TokenizedDocument.text_keeps_words
    (grammar : Grammar)
    (document : Document)
    (maxLength : Nat)
    (span : CommentSpan)
    (scope : Scope)
    (n : Nat) :
    let fresh := create grammar document maxLength
    let lines := fresh.lines
    let tokens := fresh.tokensAt
    let text? :=
      (answer (Extract.text? lines span scope) (fresh.extend n)).1
    (span.MeetsMark lines tokens →
        scope.isLineComment = true →
          Extract.KeepsWords Ascii.isBlank
            (span.unmarkedBytes lines tokens) text?) ∧
      (span.MeetsMark lines tokens →
        scope.isLineComment = false →
          Extract.KeepsWords
            (fun b => Ascii.isBlank b || b == Ascii.star)
            (span.unmarkedBytes lines tokens) text?) ∧
      (¬span.MeetsMark lines tokens →
        Extract.KeepsWords
          (fun b => Ascii.isBlank b || Marker.isMarkByte b)
          (span.bytes lines) text?) := by
  intro fresh lines tokens text?
  have hFresh := fresh_create grammar document maxLength
  have hTokens : Tokens.Partitioned lines tokens :=
    partitioned_tokensAt hFresh
      (partitioned_create grammar document maxLength)
  have hLines : ∀ line : Nat, Ascii.lf ∉ lines.getD line [] :=
    Document.lf_not_mem_lines document
  have hText :
      text? = (Extract.text? lines span scope).eval tokens :=
    fst_answer_extend hFresh _ n
  rw [hText, ← Extract.any_marked_iff hTokens]
  have hUnmarked : Ascii.lf ∉ span.unmarkedBytes lines tokens :=
    Extract.lf_not_mem_bytes hLines _
  refine ⟨?_, ?_, ?_⟩
  · intro hMarked hScope
    refine
      Extract.keepsWords_of_strip hLines hUnmarked (fun _ hIs => hIs) ?_
    intro keep hDeleted _
    rw [Extract.filter_unmarkedBytes hDeleted hTokens]
    refine Extract.flatMap_strip_of_marked hDeleted ?_ hMarked
    intro hBlock
    rw [hScope] at hBlock
    cases hBlock
  · intro hMarked hScope
    refine
      Extract.keepsWords_of_strip hLines hUnmarked
        (fun b hIs => by rw [hIs]; rfl) ?_
    intro keep hDeleted _
    have hBlank : ∀ b, Ascii.isBlank b = true → keep b = false :=
      fun b hIs => hDeleted b (by rw [hIs]; rfl)
    rw [Extract.filter_unmarkedBytes hBlank hTokens]
    exact
      Extract.flatMap_strip_of_marked hBlank
        (fun _ => hDeleted Ascii.star rfl) hMarked
  · intro hNone
    refine
      Extract.keepsWords_of_strip hLines
        (Extract.lf_not_mem_bytes hLines _)
        (fun b hIs => by rw [hIs]; rfl) ?_
    intro keep hDeleted hLf
    rw [Extract.bytes_eq_flatMap lines tokens span, List.filter_flatMap]
    exact
      Extract.flatMap_strip_of_not_marked
        (fun b hIs => hDeleted b (by rw [hIs]; rfl))
        (fun b hIs => hDeleted b (by rw [hIs, Bool.or_true])) hLf
        (Bool.eq_false_iff.mpr hNone)

/-
  A block comment with a star at the front of its second line, in a
  span that goes past the document.
-/
theorem TokenizedDocument.text_keeps_words_star :
    let document : Document :=
      ⟨utf8 "file:///a", utf8 "marked", 1, utf8 "/* a-\n * b */"⟩
    let fresh := create Grammar.markedComments document 0
    let span : CommentSpan := ⟨0, 0, 7, 0⟩
    let scope := utf8 "comment.block"
    let text := utf8 "a- b"
    (answer (Extract.text? fresh.lines span scope) (fresh.extend 1)).1 =
        some text ∧
      Extract.KeepsWords
        (fun b => Ascii.isBlank b || b == Ascii.star)
        (span.unmarkedBytes fresh.lines fresh.tokensAt) (some text) := by
  intro document fresh span scope text
  have hComputed :
      (extendWithin? 9 fresh.lines.size fresh).map
          (fun d =>
            ((Extract.allParts fresh.lines d.tokensIn span).any
                LinePart.marked,
              (Extract.text? fresh.lines span scope).eval
                d.tokensIn)) =
        some (true, some text) := by
    decide +kernel
  rcases Option.map_eq_some_iff.mp hComputed with
    ⟨final, hExtend, hBoth⟩
  have hFresh := fresh_create Grammar.markedComments document 0
  have hTokens : fresh.tokensAt = final.tokensIn :=
    tokensAt_of_extendWithin? hFresh hExtend
  rw [← hTokens, Prod.mk.injEq] at hBoth
  have hMeets : span.MeetsMark fresh.lines fresh.tokensAt :=
    (Extract.any_marked_iff
      (partitioned_tokensAt hFresh (partitioned_create _ _ _))).mp hBoth.1
  have hText :
      (answer (Extract.text? fresh.lines span scope)
          (fresh.extend 1)).1 =
        some text := by
    rw [answer_of_extendWithin? hFresh hExtend, ← hTokens]
    exact hBoth.2
  have hKeeps :=
    (text_keeps_words Grammar.markedComments document 0 span scope
      1).2.1 hMeets (by decide)
  rw [hText] at hKeeps
  exact ⟨hText, hKeeps⟩

end Marginalia

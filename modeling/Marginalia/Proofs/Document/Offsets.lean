import Mathlib.Data.List.TakeWhile
import Marginalia.Proofs.Comment.Extraction
import Marginalia.Proofs.Text.Edges

/-
  This file proves how a text falls into lines, and where the
  positions of a document are in its text.

  A position is looked for in the text as it is, so the carriage
  return of a line end belongs to its line there.  The lines of
  the document come without it.  Both ways agree on all columns of
  a line; a column past its end is the end of the line for the
  one, and the place behind the carriage return for the other.

  Key definitions include:
    * `Bytes.lastLine`
    * `Bytes.lineStart`
  The main statements are:
    * `Bytes.exists_linesBefore`
    * `Document.exists_line`
    * `Document.offsetOf_eq_lineStart_add`
    * `Document.offsetOf_ne_past_return`
-/

namespace Marginalia

------------------------------------------------------------
-- Lines of a Text
------------------------------------------------------------

namespace Bytes

/- There is always a line. -/
theorem splitLines_ne_nil
    (s : Bytes) :
    splitLines s ≠ [] := by
  cases s with
  | nil => exact List.cons_ne_nil _ _
  | cons b rest =>
      unfold splitLines
      split
      · exact List.cons_ne_nil _ _
      · split <;> exact List.cons_ne_nil _ _

/- A byte that ends no line belongs to the first one. -/
theorem splitLines_cons_of_ne
    {b : UInt8}
    {s first : Bytes}
    {rest : List Bytes}
    (hByte : b ≠ Ascii.lf)
    (hLines : splitLines s = first :: rest) :
    splitLines (b :: s) = (b :: first) :: rest := by
  rw [splitLines, if_neg hByte, hLines]

/- A text without line feeds lengthens the first line behind it. -/
theorem splitLines_append_of_not_mem
    {y first : Bytes}
    {rest : List Bytes}
    (hLines : splitLines y = first :: rest)
    (x : Bytes)
    (hNone : Ascii.lf ∉ x) :
    splitLines (x ++ y) = (x ++ first) :: rest := by
  induction x with
  | nil => exact hLines
  | cons b x ih =>
      rw [List.mem_cons, not_or] at hNone
      exact splitLines_cons_of_ne (Ne.symm hNone.1) (ih hNone.2)

/- The lines before a line feed, and those behind it. -/
theorem splitLines_append_lf
    (x y : Bytes) :
    splitLines (x ++ Ascii.lf :: y) = splitLines x ++ splitLines y := by
  induction x with
  | nil => rfl
  | cons b x ih =>
      by_cases hByte : b = Ascii.lf
      · rw [List.cons_append, splitLines, if_pos hByte, ih, splitLines,
          if_pos hByte, List.cons_append]
      · rcases List.exists_cons_of_ne_nil (splitLines_ne_nil x) with
          ⟨first, rest, hLines⟩
        rw [hLines, List.cons_append] at ih
        rw [List.cons_append, splitLines_cons_of_ne hByte ih,
          splitLines_cons_of_ne hByte hLines, List.cons_append]

/- There is one line more than there are line feeds. -/
theorem length_splitLines
    (s : Bytes) :
    (splitLines s).length = s.count Ascii.lf + 1 := by
  induction s with
  | nil => rfl
  | cons b s ih =>
      by_cases hByte : b = Ascii.lf
      · rw [splitLines, if_pos hByte, List.length_cons, ih, hByte,
          List.count_cons_self]
      · rcases List.exists_cons_of_ne_nil (splitLines_ne_nil s) with
          ⟨first, rest, hLines⟩
        rw [hLines] at ih
        rw [splitLines_cons_of_ne hByte hLines,
          List.count_cons_of_ne hByte]
        exact ih

/- The lines with a line feed between two of them are the text. -/
theorem join_splitLines
    (s : Bytes) :
    join [Ascii.lf] (splitLines s) = s := by
  induction s with
  | nil => rfl
  | cons b s ih =>
      rcases List.exists_cons_of_ne_nil (splitLines_ne_nil s) with
        ⟨first, rest, hLines⟩
      by_cases hByte : b = Ascii.lf
      · rw [splitLines, if_pos hByte, hLines, join, ← hLines, ih, hByte]
        rfl
      · rw [hLines] at ih
        rw [splitLines_cons_of_ne hByte hLines]
        cases rest with
        | nil =>
            rw [join] at ih ⊢
            rw [ih]
        | cons next rest =>
            rw [join] at ih ⊢
            rw [List.cons_append, List.cons_append, ih]

/- What comes behind the last line feed. -/
def lastLine (s : Bytes) : Bytes :=
  (s.reverse.takeWhile (fun b => b != Ascii.lf)).reverse

/- There is no line feed in the last line. -/
theorem lf_not_mem_lastLine
    (s : Bytes) :
    Ascii.lf ∉ lastLine s := by
  intro hMember
  have hHolds := List.mem_takeWhile_imp (List.mem_reverse.mp hMember)
  simp at hHolds

/- The last line is all of a text, or comes right behind a line feed. -/
theorem eq_lastLine_or_exists
    (s : Bytes) :
    s = lastLine s ∨ ∃ before, s = before ++ Ascii.lf :: lastLine s := by
  have hSplit :
      s =
        (s.reverse.dropWhile (fun b => b != Ascii.lf)).reverse ++
          lastLine s := by
    rw [lastLine, ← List.reverse_append, List.takeWhile_append_dropWhile,
      List.reverse_reverse]
  cases hRest : s.reverse.dropWhile (fun b => b != Ascii.lf) with
  | nil =>
      rw [hRest] at hSplit
      exact Or.inl hSplit
  | cons b before =>
      have hNot :=
        List.head?_dropWhile_not (fun b => b != Ascii.lf) s.reverse
      rw [hRest] at hNot
      have hByte : b = Ascii.lf := by simpa using hNot
      rw [hRest, List.reverse_cons, List.append_assoc, hByte] at hSplit
      exact Or.inr ⟨before.reverse, hSplit⟩

/- A first line, and the line feed behind it if there is one. -/
theorem exists_of_splitLines_cons
    (s : Bytes) :
    ∀ {first : Bytes} {rest : List Bytes},
      splitLines s = first :: rest →
        ∃ behind,
          s = first ++ behind ∧
            (behind = [] ∨ ∃ more, behind = Ascii.lf :: more) := by
  induction s with
  | nil =>
      intro first rest hLines
      cases hLines
      exact ⟨[], rfl, Or.inl rfl⟩
  | cons b s ih =>
      intro first rest hLines
      by_cases hByte : b = Ascii.lf
      · rw [splitLines, if_pos hByte] at hLines
        cases hLines
        exact ⟨b :: s, rfl, Or.inr ⟨s, by rw [hByte]⟩⟩
      · rcases List.exists_cons_of_ne_nil (splitLines_ne_nil s) with
          ⟨next, others, hNext⟩
        rw [splitLines_cons_of_ne hByte hNext] at hLines
        cases hLines
        rcases ih hNext with ⟨behind, hSplit, hBehind⟩
        exact ⟨behind, by rw [hSplit, List.cons_append], hBehind⟩

/- The number of bytes of some lines, each with its line feed. -/
def spread : List Bytes → Nat
| [] => 0
| line :: lines => line.length + 1 + spread lines

/- All lines together are one byte longer than the text. -/
theorem spread_splitLines
    (s : Bytes) :
    spread (splitLines s) = s.length + 1 := by
  induction s with
  | nil => rfl
  | cons b s ih =>
      by_cases hByte : b = Ascii.lf
      · rw [splitLines, if_pos hByte, List.length_cons, ← ih]
        simp [spread, Nat.add_comm]
      · rcases List.exists_cons_of_ne_nil (splitLines_ne_nil s) with
          ⟨first, rest, hLines⟩
        rw [hLines] at ih
        rw [splitLines_cons_of_ne hByte hLines, List.length_cons, ← ih]
        simp [spread]
        omega

/-
  A text read up to some place: the lines that end before it, and
  the last one, which goes on with the first line behind it.
-/
theorem exists_linesBefore
    (x : Bytes) :
    ∃ before : List Bytes,
      before.length = x.count Ascii.lf ∧
        spread before + (lastLine x).length = x.length ∧
          ∀ {y first : Bytes} {rest : List Bytes},
            splitLines y = first :: rest →
              splitLines (x ++ y) =
                before ++ (lastLine x ++ first) :: rest := by
  have hNone := lf_not_mem_lastLine x
  rcases eq_lastLine_or_exists x with hAll | ⟨before, hBefore⟩
  · refine ⟨[], ?_, ?_, ?_⟩
    · rw [hAll, List.count_eq_zero_of_not_mem hNone]
      rfl
    · rw [← hAll]
      exact Nat.zero_add _
    · intro y first rest hLines
      rw [← hAll] at hNone ⊢
      exact splitLines_append_of_not_mem hLines x hNone
  · refine ⟨splitLines before, ?_, ?_, ?_⟩
    · conv => rhs; rw [hBefore]
      rw [length_splitLines, List.count_append, List.count_cons_self,
        List.count_eq_zero_of_not_mem hNone]
    · conv => rhs; rw [hBefore]
      rw [spread_splitLines, List.length_append, List.length_cons]
      omega
    · intro y first rest hLines
      conv => lhs; rw [hBefore]
      rw [List.append_assoc, List.cons_append, splitLines_append_lf,
        splitLines_append_of_not_mem hLines _ hNone]

/- The offset at which a line starts, the first one being line zero. -/
def lineStart : Bytes → Nat → Nat
| _, 0 => 0
| [], _ + 1 => 0
| b :: rest, n + 1 =>
    1 + lineStart rest (if b = Ascii.lf then n else n + 1)

/-
  A line that exists starts behind as many line feeds as its number
  says, the last of which comes right before it.
-/
theorem exists_lineStart
    (s : Bytes) :
    ∀ {n : Nat},
      n ≤ s.count Ascii.lf →
        ∃ x y,
          s = x ++ y ∧ x.length = lineStart s n ∧
            x.count Ascii.lf = n ∧
              (x = [] ∨ ∃ before, x = before ++ [Ascii.lf]) := by
  induction s with
  | nil =>
      intro n hCount
      have hZero : n = 0 := by simpa using hCount
      subst hZero
      exact ⟨[], [], rfl, rfl, rfl, Or.inl rfl⟩
  | cons b s ih =>
      intro n hCount
      cases n with
      | zero => exact ⟨[], b :: s, rfl, rfl, rfl, Or.inl rfl⟩
      | succ n =>
          by_cases hByte : b = Ascii.lf
          · subst hByte
            rw [List.count_cons_self] at hCount
            rcases ih (Nat.le_of_succ_le_succ hCount) with
              ⟨x, y, rfl, hLength, hFeeds, hEnd⟩
            refine ⟨Ascii.lf :: x, y, rfl, ?_, ?_, Or.inr ?_⟩
            · rw [List.length_cons, hLength, lineStart, if_pos rfl,
                Nat.add_comm]
            · rw [List.count_cons_self, hFeeds]
            · rcases hEnd with rfl | ⟨before, rfl⟩
              · exact ⟨[], rfl⟩
              · exact ⟨Ascii.lf :: before, rfl⟩
          · rw [List.count_cons_of_ne hByte] at hCount
            rcases ih hCount with ⟨x, y, rfl, hLength, hFeeds, hEnd⟩
            refine ⟨b :: x, y, rfl, ?_, ?_, Or.inr ?_⟩
            · rw [List.length_cons, hLength, lineStart, if_neg hByte,
                Nat.add_comm]
            · rw [List.count_cons_of_ne hByte, hFeeds]
            · rcases hEnd with rfl | ⟨before, rfl⟩
              · cases hFeeds
              · exact ⟨b :: before, rfl⟩

/- A text that ends with a line feed has an empty last line. -/
theorem lastLine_append_lf
    (s : Bytes) :
    lastLine (s ++ [Ascii.lf]) = [] := by
  simp [lastLine]

end Bytes

------------------------------------------------------------
-- Positions in a Text
------------------------------------------------------------

namespace Utf16

/- A line feed is a piece of its own. -/
theorem lf_alone :
    isContinuation Ascii.lf = false ∧ announced Ascii.lf = 0 := by
  decide

/- A carriage return continues no character. -/
theorem cr_not_continuation :
    isContinuation Ascii.cr = false := by
  decide

/-
  A carriage return behind a line adds a column to it, which only
  columns past the end of the line come to.
-/
theorem toByteColumn_append_return
    (line : Bytes)
    (character : Int) :
    toByteColumn (line ++ [Ascii.cr]) character =
      toByteColumn line character +
        if length line < character then 1 else 0 := by
  have hByte : (line ++ [Ascii.cr])[line.length]? = some Ascii.cr := by
    simp
  have hEdge :=
    isEdge_piecesAfter (line ++ [Ascii.cr]) (Nat.zero_le _) hByte
      cr_not_continuation
  rw [toByteColumn_append hEdge]
  by_cases hInside : character ≤ length line
  · rw [if_pos hInside, if_neg (Int.not_lt.mpr hInside), Nat.add_zero]
  · have hPast := Int.lt_of_not_ge hInside
    have hReturn : length [Ascii.cr] = 1 := by decide
    rw [if_neg hInside, if_pos hPast,
      toByteColumn_of_length_le (Int.le_of_lt hPast),
      toByteColumn_of_length_le (by omega)]
    rfl

end Utf16

namespace Document

/- A line is what it is without its carriage return, and that. -/
theorem eq_dropReturn_append
    (line : Bytes) :
    line = dropReturn line ∨ line = dropReturn line ++ [Ascii.cr] := by
  unfold dropReturn
  by_cases hReturn : line.getLast? = some Ascii.cr
  · rw [if_pos hReturn]
    exact Or.inr (List.dropLast_append_getLast? _ hReturn).symm
  · rw [if_neg hReturn]
    exact Or.inl rfl

/- A column of a line is found behind the lines before it. -/
theorem offsetIn_append
    (line : Bytes)
    (rest : List Bytes)
    (character : Int)
    (before : List Bytes) :
    offsetIn (before ++ line :: rest) before.length character =
      Bytes.spread before + Utf16.toByteColumn line character := by
  induction before with
  | nil =>
      rw [List.nil_append, List.length_nil, offsetIn]
      exact (Nat.zero_add _).symm
  | cons first before ih =>
      rcases
          List.exists_cons_of_ne_nil
            (List.append_ne_nil_of_right_ne_nil before
              (List.cons_ne_nil line rest)) with
        ⟨next, others, hNext⟩
      rw [hNext] at ih
      rw [List.cons_append, hNext, List.length_cons, offsetIn, ih,
        ← Nat.add_assoc]
      simp [Bytes.spread]

/-
  Where a position is, in a text that is read up to some place:
  in the line that is begun there and goes on behind it.
-/
theorem offsetOf_append
    {y first : Bytes}
    {rest : List Bytes}
    (x : Bytes)
    (hLines : Bytes.splitLines y = first :: rest)
    (character : Int) :
    offsetOf (x ++ y) ⟨x.count Ascii.lf, character⟩ +
        (Bytes.lastLine x).length =
      x.length +
        Utf16.toByteColumn (Bytes.lastLine x ++ first) character := by
  rcases Bytes.exists_linesBefore x with
    ⟨before, hCount, hSpread, hAppend⟩
  rw [offsetOf, hAppend hLines, Int.toNat_natCast, ← hCount,
    offsetIn_append, ← hSpread]
  exact Nat.add_right_comm _ _ _

/- A line of a document, with its carriage return, in the text. -/
theorem exists_line
    {document : Document}
    {line : Nat}
    (hLine : line < document.lines.length) :
    ∃ front whole behind,
      document.text = front ++ (whole ++ behind) ∧
        front.length = Bytes.lineStart document.text line ∧
        front.count Ascii.lf = line ∧
        (front = [] ∨ ∃ before, front = before ++ [Ascii.lf]) ∧
        (behind = [] ∨ ∃ more, behind = Ascii.lf :: more) ∧
        document.lineAt line = dropReturn whole ∧
        ∀ character : Int,
          offsetOf document.text ⟨line, character⟩ =
            front.length + Utf16.toByteColumn whole character := by
  have hFeeds : line ≤ document.text.count Ascii.lf := by
    rw [lines, List.length_map, Bytes.length_splitLines] at hLine
    exact Nat.le_of_lt_succ hLine
  rcases Bytes.exists_lineStart document.text hFeeds with
    ⟨front, back, hText, hStart, hCount, hFront⟩
  rcases
      List.exists_cons_of_ne_nil (Bytes.splitLines_ne_nil back) with
    ⟨whole, rest, hLines⟩
  rcases Bytes.exists_of_splitLines_cons back hLines with
    ⟨behind, hBack, hBehind⟩
  have hEmpty : Bytes.lastLine front = [] := by
    rcases hFront with rfl | ⟨before, rfl⟩
    · rfl
    · exact Bytes.lastLine_append_lf before
  refine
    ⟨front, whole, behind, by rw [hText, hBack], hStart, hCount, hFront,
      hBehind, ?_, ?_⟩
  · rcases Bytes.exists_linesBefore front with
      ⟨before, hBefore, _, hAppend⟩
    rw [lineAt, lines, hText, hAppend hLines, hEmpty, List.map_append,
      List.map_cons, ← hCount, ← hBefore]
    simp
  · intro character
    have hAt := offsetOf_append front hLines character
    rw [hCount, ← hText, hEmpty] at hAt
    exact hAt

/-
  A column of a line with its carriage return, and one without it.
  What comes behind the line shows whether there is one.
-/
theorem toByteColumn_dropReturn
    {behind : Bytes}
    (hBehind : behind = [] ∨ ∃ more, behind = Ascii.lf :: more)
    (whole : Bytes)
    (character : Int) :
    Utf16.toByteColumn whole character =
      Utf16.toByteColumn (dropReturn whole) character +
        if Utf16.length (dropReturn whole) < character ∧
            (whole ++ behind)[(dropReturn whole).length]? =
              some Ascii.cr then
          1
        else 0 := by
  rcases eq_dropReturn_append whole with hPlain | hReturn
  · have hNext : (whole ++ behind)[whole.length]? ≠ some Ascii.cr := by
      rcases hBehind with rfl | ⟨more, rfl⟩
      · simp
      · simp [Ascii.lf, Ascii.cr]
    rw [← hPlain, if_neg (fun hBoth => hNext hBoth.2), Nat.add_zero]
  · generalize dropReturn whole = content at hReturn ⊢
    subst hReturn
    have hNext :
        (content ++ [Ascii.cr] ++ behind)[content.length]? =
          some Ascii.cr := by
      simp
    simp only [hNext, and_true]
    exact Utf16.toByteColumn_append_return content character

/-
  The offset of a position in a line that exists.  The text falls
  into what comes before the line, the line, its ending and what
  comes behind.  Up to the end of the line a column is found where
  the line has it; one past the end comes behind the carriage
  return that the line may end with.
-/
theorem offsetOf_eq_lineStart_add
    {document : Document}
    {line : Nat}
    (hLine : line < document.lines.length) :
    let start := Bytes.lineStart document.text line
    let content := document.lineAt line
    (∃ front ending behind,
      document.text = front ++ content ++ ending ++ behind ∧
        front.length = start ∧
        front.count Ascii.lf = line ∧
        (front = [] ∨ ∃ before, front = before ++ [Ascii.lf]) ∧
        (ending = [] ∨ ending = [Ascii.cr]) ∧
        (behind = [] ∨ ∃ more, behind = Ascii.lf :: more)) ∧
      ∀ character : Int,
        offsetOf document.text ⟨line, character⟩ =
          start + Utf16.toByteColumn content character +
            if Utf16.length content < character ∧
                document.text[start + content.length]? =
                  some Ascii.cr then
              1
            else 0 := by
  intro start content
  rcases exists_line hLine with
    ⟨front, whole, behind, hText, hStart, hCount, hFront, hBehind,
      hContent, hOffset⟩
  have hSame : content = dropReturn whole := hContent
  have hLength : front.length = start := hStart
  constructor
  · rcases eq_dropReturn_append whole with hPlain | hReturn
    · refine
        ⟨front, [], behind, ?_, hStart, hCount, hFront, Or.inl rfl,
          hBehind⟩
      rw [hSame, ← hPlain, List.append_nil, List.append_assoc]
      exact hText
    · refine
        ⟨front, [Ascii.cr], behind, ?_, hStart, hCount, hFront,
          Or.inr rfl, hBehind⟩
      rw [hSame, List.append_assoc front, ← hReturn, List.append_assoc]
      exact hText
  · intro character
    have hByte :
        document.text[start + content.length]? =
          (whole ++ behind)[(dropReturn whole).length]? := by
      rw [hText, hSame, ← hLength,
        List.getElem?_append_right (Nat.le_add_right _ _),
        Nat.add_sub_cancel_left]
    rw [hByte, hOffset, hLength, hSame,
      toByteColumn_dropReturn hBehind whole character, Nat.add_assoc]

/- A column past the end of the first of two lines. -/
theorem offsetOf_eq_lineStart_add_past :
    let document : Document :=
      ⟨utf8 "file:///a", utf8 "c", 1, utf8 "// é\r\nx"⟩
    0 < document.lines.length ∧
      document.lineAt 0 = utf8 "// é" ∧
        offsetOf document.text ⟨(0 : Nat), 9⟩ = 6 := by
  intro document
  have hLine : 0 < document.lines.length := by decide
  refine ⟨hLine, by decide, ?_⟩
  rw [(offsetOf_eq_lineStart_add hLine).2 9]
  decide

/-
  A line ends before its carriage return, but a column past its end
  is behind it.  Text that is put there comes to stand between the
  carriage return and the line feed, and both belong to the line.
-/
theorem offsetOf_ne_past_return :
    let document : Document :=
      ⟨utf8 "file:///a", utf8 "c", 1, utf8 "a\r\nb"⟩
    0 < document.lines.length ∧
      offsetOf document.text ⟨(0 : Nat), 2⟩ ≠
        Bytes.lineStart document.text 0 +
          Utf16.toByteColumn (document.lineAt 0) 2 ∧
      (document.applyChange ⟨⟨0, 2⟩, ⟨0, 2⟩⟩ (utf8 "x") 2).lines =
        [utf8 "a\rx", utf8 "b"] := by
  decide

end Document

end Marginalia

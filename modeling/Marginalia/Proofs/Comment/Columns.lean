import Marginalia.Comment.Lookup

/-
  This file proves what the conversion of columns keeps: the
  order of columns, the length of the line as a bound, and each
  column at which a character begins.

  It also says when a place lies in a span of a document, in byte
  columns, and in a range, in the columns of the editor.  The end
  counts as a place of both.

  Key definitions include:
    * `Utf16.length`
    * `Utf16.Sharp`
    * `CommentSpan.Holds`, `Range.Holds`
  The main statements are:
    * `Utf16.ofByteColumn_mono`
    * `Utf16.ofByteColumn_le_length`
    * `Utf16.sharp_of_not_continuation`
    * `Utf16.length_le`
    * `CommentSpan.holds_toRange`
-/

namespace Marginalia

------------------------------------------------------------
-- Columns
------------------------------------------------------------

namespace Utf16

/- The number of units of some pieces. -/
def allUnits : List Bytes → Nat
| [] => 0
| piece :: rest => units piece + allUnits rest

/- The number of UTF-16 units of a line. -/
def length (line : Bytes) : Nat :=
  allUnits (pieces line)

/- No more units come before a column than there are. -/
theorem unitsBefore_le_allUnits
    (ps : List Bytes) :
    ∀ column : Nat, unitsBefore ps column ≤ allUnits ps := by
  induction ps with
  | nil =>
      intro column
      exact Nat.le_refl _
  | cons piece rest ih =>
      intro column
      rw [unitsBefore, allUnits]
      split
      · exact Nat.zero_le _
      · exact Nat.add_le_add_left (ih _) _

/- No fewer units come before a later column. -/
theorem unitsBefore_mono
    (ps : List Bytes) :
    ∀ {a b : Nat}, a ≤ b → unitsBefore ps a ≤ unitsBefore ps b := by
  induction ps with
  | nil =>
      intro a b _
      exact Nat.le_refl _
  | cons piece rest ih =>
      intro a b hLe
      rw [unitsBefore, unitsBefore]
      by_cases hFirst : a = 0
      · rw [if_pos hFirst]
        exact Nat.zero_le _
      · rw [if_neg hFirst, if_neg (by omega)]
        exact Nat.add_le_add_left (ih (Nat.sub_le_sub_right hLe _)) _

/- The columns of the editor are in the order of the byte columns. -/
theorem ofByteColumn_mono
    {a b : Nat}
    (line : Bytes)
    (hLe : a ≤ b) :
    ofByteColumn line a ≤ ofByteColumn line b :=
  unitsBefore_mono (pieces line) hLe

/- A column of the editor is at most the length of the line. -/
theorem ofByteColumn_le_length
    (line : Bytes)
    (column : Nat) :
    ofByteColumn line column ≤ length line :=
  unitsBefore_le_allUnits (pieces line) column

/- A column at which one of the pieces begins, or the text ends. -/
def IsEdge : List Bytes → Nat → Prop
| [], column => column = 0
| piece :: rest, column =>
    column = 0 ∨
      (piece.length ≤ column ∧ IsEdge rest (column - piece.length))

/- A column where a piece begins is kept on the way there and back. -/
theorem bytesBefore_unitsBefore
    (ps : List Bytes) :
    ∀ {column : Nat},
      IsEdge ps column → bytesBefore ps (unitsBefore ps column) = column := by
  induction ps with
  | nil =>
      intro column hEdge
      exact hEdge.symm
  | cons piece rest ih =>
      intro column hEdge
      by_cases hFirst : column = 0
      · rw [unitsBefore, if_pos hFirst, bytesBefore, if_pos rfl, hFirst]
      · rcases hEdge with hZero | ⟨hLe, hRest⟩
        · exact absurd hZero hFirst
        · have hUnits : 1 ≤ units piece := by
            unfold units
            split <;> omega
          rw [unitsBefore, if_neg hFirst, bytesBefore, if_neg (by omega),
            Nat.add_sub_cancel_left, ih hRest]
          omega

/-
  A piece begins at each byte that continues none.  The induction
  follows the way in which the pieces are cut.
-/
theorem isEdge_piecesAfter
    {b : UInt8}
    (s : Bytes) :
    ∀ {skip column : Nat},
      skip ≤ column →
        s[column]? = some b →
          isContinuation b = false →
            IsEdge (piecesAfter skip s) (column - skip) := by
  induction s with
  | nil =>
      intro skip column _ hByte
      cases hByte
  | cons lead rest ih =>
      intro skip column hSkip hByte hOther
      cases skip with
      | zero =>
          cases column with
          | zero => exact Or.inl rfl
          | succ column =>
              rw [List.getElem?_cons_succ] at hByte
              -- The bytes that belong to the piece all continue it.
              have hLe : followers lead rest ≤ column := by
                unfold followers
                dsimp only
                split
                · next hTail =>
                    apply Nat.le_of_not_lt
                    intro hLt
                    have hMember : b ∈ rest.take (announced lead) :=
                      List.mem_of_getElem?
                        ((List.getElem?_take_of_lt hLt).trans hByte)
                    have hContinues :=
                      List.all_eq_true.mp hTail.2 b hMember
                    rw [hOther] at hContinues
                    cases hContinues
                · exact Nat.zero_le _
              have hRest := ih hLe hByte hOther
              have hLength :
                  (lead :: rest.take (followers lead rest)).length =
                    followers lead rest + 1 := by
                have hInside := (List.getElem?_eq_some_iff.mp hByte).1
                rw [List.length_cons, List.length_take,
                  Nat.min_eq_left (by omega)]
              refine Or.inr ⟨by omega, ?_⟩
              rw [hLength, Nat.sub_zero, Nat.add_sub_add_right]
              exact hRest
      | succ skip =>
          cases column with
          | zero => cases hSkip
          | succ column =>
              rw [List.getElem?_cons_succ] at hByte
              rw [Nat.add_sub_add_right]
              exact ih (Nat.le_of_succ_le_succ hSkip) hByte hOther

/- The column is kept on the way to the columns of the editor and back. -/
def Sharp (line : Bytes) (column : Nat) : Prop :=
  toByteColumn line (ofByteColumn line column) = column

/- The first column is kept. -/
theorem sharp_zero
    (line : Bytes) :
    Sharp line 0 := by
  apply bytesBefore_unitsBefore
  cases pieces line with
  | nil => rfl
  | cons piece rest => exact Or.inl rfl

/- The column of a byte that continues no character is kept. -/
theorem sharp_of_not_continuation
    {text : Bytes}
    {column : Nat}
    {b : UInt8}
    (hByte : text[column]? = some b)
    (hOther : isContinuation b = false) :
    Sharp text column :=
  bytesBefore_unitsBefore _
    (isEdge_piecesAfter text (Nat.zero_le column) hByte hOther)

/- No piece has more units than bytes. -/
theorem allUnits_le
    (s : Bytes) :
    ∀ skip : Nat,
      allUnits (piecesAfter skip s) + min skip s.length ≤ s.length := by
  induction s with
  | nil =>
      intro skip
      simp [piecesAfter, allUnits]
  | cons lead rest ih =>
      intro skip
      cases skip with
      | zero =>
          have hRest := ih (followers lead rest)
          have hUnits :
              units (lead :: rest.take (followers lead rest)) ≤
                1 + min (followers lead rest) rest.length := by
            unfold units
            split
            · next hFour =>
                rw [List.length_cons, List.length_take] at hFour
                omega
            · omega
          simp only [piecesAfter, allUnits, List.length_cons]
          omega
      | succ skip =>
          have hRest := ih skip
          simp only [piecesAfter, List.length_cons]
          omega

/- A line has no more UTF-16 units than bytes. -/
theorem length_le
    (line : Bytes) :
    length line ≤ line.length := by
  have hUnits := allUnits_le line 0
  unfold length pieces
  omega

end Utf16

------------------------------------------------------------
-- Places
------------------------------------------------------------

namespace CommentSpan

/- The place lies in the span, or at its end. -/
structure Holds (span : CommentSpan) (line column : Nat) : Prop where
  start_le :
    span.startLine < line ∨
      (span.startLine = line ∧ span.startColumn ≤ column)
  le_stop :
    line < span.stopLine ∨
      (line = span.stopLine ∧ column ≤ span.stopColumn)

end CommentSpan

namespace Range

/- The position lies in the range, or at its end. -/
structure Holds (range : Range) (position : Position) : Prop where
  start_le :
    range.start.line < position.line ∨
      (range.start.line = position.line ∧
        range.start.character ≤ position.character)
  le_stop :
    position.line < range.stop.line ∨
      (position.line = range.stop.line ∧
        position.character ≤ range.stop.character)

end Range

/- What lies in a span lies in its range. -/
theorem CommentSpan.holds_toRange
    {span : CommentSpan}
    {line column : Nat}
    (lines : Array Bytes)
    (hHolds : span.Holds line column) :
    (span.toRange lines).Holds
      ⟨line, Utf16.ofByteColumn (lines.getD line []) column⟩ := by
  constructor
  · rcases hHolds.start_le with hBefore | ⟨rfl, hColumn⟩
    · exact Or.inl (Int.ofNat_lt.mpr hBefore)
    · exact
        Or.inr
          ⟨rfl, Int.ofNat_le.mpr (Utf16.ofByteColumn_mono _ hColumn)⟩
  · rcases hHolds.le_stop with hAfter | ⟨rfl, hColumn⟩
    · exact Or.inl (Int.ofNat_lt.mpr hAfter)
    · exact
        Or.inr
          ⟨rfl, Int.ofNat_le.mpr (Utf16.ofByteColumn_mono _ hColumn)⟩

end Marginalia

import Marginalia.Proofs.Comment.Columns

/-
  This file proves how the pieces of a text behave where the text
  is taken apart.  At an edge between two pieces both parts have
  the pieces that they have in the whole text, so the units of the
  parts add up, and the edges of a part are those of the whole.

  A byte that continues no character stands at an edge, and one
  that announces nothing has an edge behind it too.  Line ends are
  such bytes.

  The main statements are:
    * `Utf16.flatten_pieces`
    * `Utf16.pieces_append`
    * `Utf16.pieces_append_cons`
    * `Utf16.bytesBefore_append`
    * `Utf16.toByteColumn_append`
-/

namespace Marginalia

namespace Utf16

------------------------------------------------------------
-- Lists of Pieces
------------------------------------------------------------

/- The first column is an edge. -/
theorem isEdge_zero
    (ps : List Bytes) :
    IsEdge ps 0 := by
  cases ps with
  | nil => rfl
  | cons piece rest => exact Or.inl rfl

/- Whether a column is an edge can be decided. -/
instance decidableIsEdge :
    (ps : List Bytes) → (column : Nat) → Decidable (IsEdge ps column)
| [], column => inferInstanceAs (Decidable (column = 0))
| piece :: rest, column =>
    haveI := decidableIsEdge rest (column - piece.length)
    inferInstanceAs
      (Decidable
        (column = 0 ∨
          (piece.length ≤ column ∧
            IsEdge rest (column - piece.length))))

/- There is no edge behind all pieces. -/
theorem le_of_isEdge
    (ps : List Bytes) :
    ∀ {column : Nat}, IsEdge ps column → column ≤ ps.flatten.length := by
  induction ps with
  | nil =>
      intro column hEdge
      exact Nat.le_of_eq hEdge
  | cons piece ps ih =>
      intro column hEdge
      rw [List.flatten_cons, List.length_append]
      rcases hEdge with rfl | ⟨hPiece, hRest⟩
      · exact Nat.zero_le _
      · have hLe := ih hRest
        omega

/- Up to their end, the edges of the first pieces are those of all. -/
theorem isEdge_append_left
    (ps qs : List Bytes) :
    ∀ {column : Nat},
      column ≤ ps.flatten.length →
        (IsEdge (ps ++ qs) column ↔ IsEdge ps column) := by
  induction ps with
  | nil =>
      intro column hColumn
      have hZero : column = 0 := by simpa using hColumn
      subst hZero
      exact iff_of_true (isEdge_zero _) rfl
  | cons piece ps ih =>
      intro column hColumn
      rw [List.flatten_cons, List.length_append] at hColumn
      rw [List.cons_append, IsEdge, IsEdge, ih (by omega)]

/- Behind the first pieces, the edges are those of the others. -/
theorem isEdge_append_right
    (ps qs : List Bytes)
    (column : Nat) :
    IsEdge (ps ++ qs) (ps.flatten.length + column) ↔
      IsEdge qs column := by
  induction ps with
  | nil => simp
  | cons piece ps ih =>
      have hRest :
          (piece :: ps).flatten.length + column - piece.length =
            ps.flatten.length + column := by
        rw [List.flatten_cons, List.length_append]
        omega
      rw [List.cons_append, IsEdge, hRest, ih]
      constructor
      · rintro (hZero | ⟨_, hEdge⟩)
        · have hColumn : column = 0 := by omega
          subst hColumn
          exact isEdge_zero qs
        · exact hEdge
      · intro hEdge
        refine Or.inr ⟨?_, hEdge⟩
        rw [List.flatten_cons, List.length_append]
        omega

/- Every piece counts. -/
theorem units_pos
    (piece : Bytes) :
    0 < units piece := by
  unfold units
  split <;> omega

/-
  A column up to the end of the first pieces is found among them,
  a later one among the others.
-/
theorem bytesBefore_append
    (ps qs : List Bytes) :
    ∀ target : Nat,
      bytesBefore (ps ++ qs) target =
        if target ≤ allUnits ps then bytesBefore ps target
        else ps.flatten.length + bytesBefore qs (target - allUnits ps) := by
  induction ps with
  | nil =>
      intro target
      by_cases hZero : target = 0
      · subst hZero
        cases qs <;> simp [bytesBefore]
      · simp [allUnits, hZero]
  | cons piece ps ih =>
      intro target
      have hUnits := units_pos piece
      rw [List.cons_append, bytesBefore, bytesBefore, allUnits, ih]
      by_cases hZero : target = 0
      · simp [hZero]
      · by_cases hInside : target ≤ units piece + allUnits ps
        · rw [if_neg hZero, if_neg hZero, if_pos hInside,
            if_pos (by omega)]
        · rw [if_neg hZero, if_neg hInside, if_neg (by omega),
            List.flatten_cons, List.length_append, Nat.sub_sub]
          omega

/- No more bytes come before a column than there are. -/
theorem bytesBefore_of_allUnits_le
    (ps : List Bytes) :
    ∀ {target : Nat},
      allUnits ps ≤ target → bytesBefore ps target = ps.flatten.length := by
  induction ps with
  | nil =>
      intro target _
      rfl
  | cons piece ps ih =>
      intro target hTarget
      have hUnits := units_pos piece
      rw [allUnits] at hTarget
      rw [bytesBefore, if_neg (by omega), ih (by omega),
        List.flatten_cons, List.length_append]

------------------------------------------------------------
-- Texts Taken Apart
------------------------------------------------------------

/- The pieces of a text hold all of it. -/
theorem flatten_piecesAfter
    (s : Bytes) :
    ∀ skip : Nat, (piecesAfter skip s).flatten = s.drop skip := by
  induction s with
  | nil =>
      intro skip
      simp [piecesAfter]
  | cons lead rest ih =>
      intro skip
      cases skip with
      | zero => simp [piecesAfter, ih]
      | succ skip => simpa [piecesAfter] using ih skip

/- The pieces of a text, one after the other, are the text. -/
theorem flatten_pieces
    (s : Bytes) :
    (pieces s).flatten = s :=
  flatten_piecesAfter s 0

/- A piece has no more bytes behind its lead than there are. -/
theorem followers_le
    (lead : UInt8)
    (rest : Bytes) :
    followers lead rest ≤ rest.length := by
  unfold followers
  dsimp only
  split
  · next hTail =>
      rw [← hTail.1, List.length_take]
      exact Nat.min_le_right _ _
  · exact Nat.zero_le _

/- A piece that ends inside the first part of a text is a piece of it. -/
theorem followers_append
    {lead : UInt8}
    {rest other : Bytes}
    (hInside : followers lead (rest ++ other) ≤ rest.length) :
    followers lead (rest ++ other) = followers lead rest := by
  have hTake :
      announced lead ≤ rest.length →
        (rest ++ other).take (announced lead) =
          rest.take (announced lead) :=
    List.take_append_of_le_length
  by_cases hLength : announced lead ≤ rest.length
  · unfold followers
    dsimp only
    rw [hTake hLength]
  · -- What is announced does not fit, with the other part or without.
    have hShort : followers lead rest = 0 := by
      unfold followers
      dsimp only
      rw [if_neg]
      rintro ⟨hTail, _⟩
      rw [List.length_take] at hTail
      omega
    rw [hShort]
    unfold followers at hInside ⊢
    dsimp only at hInside ⊢
    split at hInside
    · exact absurd hInside hLength
    · next hTail => exact if_neg hTail

/-
  A text that is taken apart at an edge.  The induction follows
  the way in which the pieces are cut.
-/
theorem piecesAfter_append
    (y x : Bytes) :
    ∀ {skip : Nat},
      skip ≤ x.length →
        IsEdge (piecesAfter skip (x ++ y)) (x.length - skip) →
          piecesAfter skip (x ++ y) = piecesAfter skip x ++ pieces y := by
  induction x with
  | nil =>
      intro skip hSkip _
      have hZero : skip = 0 := by simpa using hSkip
      subst hZero
      rfl
  | cons lead x ih =>
      intro skip hSkip hEdge
      cases skip with
      | zero =>
          rw [List.cons_append, piecesAfter] at hEdge ⊢
          rcases hEdge with hZero | ⟨hLe, hEdge⟩
          · cases hZero
          · have hPiece :
                (lead :: (x ++ y).take (followers lead (x ++ y))).length =
                  followers lead (x ++ y) + 1 := by
              rw [List.length_cons, List.length_take,
                Nat.min_eq_left (followers_le lead (x ++ y))]
            rw [hPiece, List.length_cons, Nat.sub_zero] at hLe hEdge
            have hInside : followers lead (x ++ y) ≤ x.length :=
              Nat.le_of_succ_le_succ hLe
            rw [Nat.add_sub_add_right] at hEdge
            rw [ih hInside hEdge, piecesAfter,
              ← followers_append hInside,
              List.take_append_of_le_length hInside, List.cons_append]
      | succ skip =>
          rw [List.cons_append, piecesAfter] at hEdge ⊢
          rw [List.length_cons, Nat.add_sub_add_right] at hEdge
          exact ih (Nat.le_of_succ_le_succ hSkip) hEdge

/- The pieces of two parts of a text with an edge between them. -/
theorem pieces_append
    {x y : Bytes}
    (hEdge : IsEdge (pieces (x ++ y)) x.length) :
    pieces (x ++ y) = pieces x ++ pieces y :=
  piecesAfter_append y x (Nat.zero_le _) hEdge

/-
  A byte that continues nothing and announces nothing is a piece
  of its own, wherever it stands.
-/
theorem pieces_append_cons
    {b : UInt8}
    (hOther : isContinuation b = false)
    (hAlone : announced b = 0)
    (x y : Bytes) :
    pieces (x ++ b :: y) = pieces x ++ [b] :: pieces y := by
  have hByte : (x ++ b :: y)[x.length]? = some b := by simp
  have hEdge :=
    isEdge_piecesAfter (x ++ b :: y) (Nat.zero_le _) hByte hOther
  have hFollowers : followers b y = 0 := by
    simp [followers, hAlone]
  have hFirst : pieces (b :: y) = [b] :: pieces y := by
    simp [pieces, piecesAfter, hFollowers]
  rw [pieces_append hEdge, hFirst]

/- In a text that begins with another one, no column of it moves. -/
theorem toByteColumn_append
    {x y : Bytes}
    (hEdge : IsEdge (pieces (x ++ y)) x.length)
    (character : Int) :
    toByteColumn (x ++ y) character =
      if character ≤ length x then toByteColumn x character
      else x.length + toByteColumn y (character - length x) := by
  have hNat :
      character ≤ length x ↔ character.toNat ≤ allUnits (pieces x) := by
    unfold length
    omega
  have hRest :
      (character - length x).toNat =
        character.toNat - allUnits (pieces x) := by
    unfold length
    omega
  unfold toByteColumn
  rw [pieces_append hEdge, bytesBefore_append, flatten_pieces, hRest]
  by_cases hInside : character ≤ length x
  · rw [if_pos hInside, if_pos (hNat.mp hInside)]
  · rw [if_neg hInside, if_neg (fun hLe => hInside (hNat.mpr hLe))]

/- A column past the end of a line is its end. -/
theorem toByteColumn_of_length_le
    {line : Bytes}
    {character : Int}
    (hPast : length line ≤ character) :
    toByteColumn line character = line.length := by
  have hNat : allUnits (pieces line) ≤ character.toNat := by
    unfold length at hPast
    omega
  unfold toByteColumn
  rw [bytesBefore_of_allUnits_le _ hNat, flatten_pieces]

end Utf16

end Marginalia

import Marginalia.Proofs.Text.Edges

/-
  This file proves how the two conversions of columns round, on
  every byte string, whether it is UTF-8 or not.

  A walk over a text stands before its first byte and passes one
  character, or one byte that begins none, with each step.  Where
  it comes to stand is a boundary, and the units that it has passed
  are the count of the boundary.  A column of the editor is taken
  to the first boundary with that count or more, and a byte column
  to the count of the first boundary that is not before it.

  Both conversions go through the pieces of the text until enough
  is counted; they differ in what they count and in what they give.
  What they have in common is proved of any two such numbers.

  Key definitions include:
    * `Utf16.total`, `Utf16.countBefore`
    * `Utf16.Visits`
    * `Utf16.IsFirst`
  The main statements are:
    * `Utf16.exists_countBefore`
    * `Utf16.countBefore_total`
    * `Utf16.visits_iff`
    * `Utf16.columns_round`
-/

namespace Marginalia

namespace Utf16

------------------------------------------------------------
-- Counting Pieces
------------------------------------------------------------

/- What some pieces count for together. -/
def total (count : Bytes → Nat) : List Bytes → Nat
| [] => 0
| piece :: rest => count piece + total count rest

/-
  What the pieces count for that begin before a target, if how far
  one has come is measured in some way.
-/
def countBefore (measure count : Bytes → Nat) : List Bytes → Nat → Nat
| [], _ => 0
| piece :: rest, target =>
    if target = 0 then 0
    else
      count piece +
        countBefore measure count rest (target - measure piece)

variable {measure count : Bytes → Nat}

theorem total_append
    (ps qs : List Bytes) :
    total count (ps ++ qs) = total count ps + total count qs := by
  induction ps with
  | nil => exact (Nat.zero_add _).symm
  | cons piece ps ih =>
      rw [List.cons_append, total, ih, total, Nat.add_assoc]

/- The pieces at the front count for no more than all of them. -/
theorem total_le_of_isPrefix
    (count : Bytes → Nat)
    {front ps : List Bytes}
    (hFront : front <+: ps) :
    total count front ≤ total count ps := by
  rcases hFront with ⟨back, rfl⟩
  rw [total_append]
  exact Nat.le_add_right _ _

theorem total_length
    (ps : List Bytes) :
    total List.length ps = ps.flatten.length := by
  induction ps with
  | nil => rfl
  | cons piece ps ih =>
      rw [total, ih, List.flatten_cons, List.length_append]

/- The bytes of all pieces are those of the text. -/
theorem total_length_pieces
    (s : Bytes) :
    total List.length (pieces s) = s.length := by
  rw [total_length, flatten_pieces]

theorem bytesBefore_eq_countBefore
    (ps : List Bytes) :
    ∀ target : Nat,
      bytesBefore ps target =
        countBefore units List.length ps target := by
  induction ps with
  | nil =>
      intro target
      rfl
  | cons piece ps ih =>
      intro target
      rw [bytesBefore, countBefore, ih]

theorem unitsBefore_eq_countBefore
    (ps : List Bytes) :
    ∀ target : Nat,
      unitsBefore ps target =
        countBefore List.length units ps target := by
  induction ps with
  | nil =>
      intro target
      rfl
  | cons piece ps ih =>
      intro target
      rw [unitsBefore, countBefore, ih]

/-
  The pieces that are counted are the fewest at the front that
  measure up to the target, or all if these do not.
-/
theorem exists_countBefore
    (measure count : Bytes → Nat)
    (ps : List Bytes) :
    ∀ target : Nat,
      ∃ front,
        front <+: ps ∧
          countBefore measure count ps target = total count front ∧
          (target ≤ total measure front ∨ front = ps) ∧
          ∀ other,
            other <+: ps →
              target ≤ total measure other → front <+: other := by
  induction ps with
  | nil =>
      intro target
      exact
        ⟨[], List.prefix_rfl, rfl, Or.inr rfl,
          fun other _ _ => List.nil_prefix⟩
  | cons piece ps ih =>
      intro target
      by_cases hZero : target = 0
      · refine ⟨[], List.nil_prefix, ?_, Or.inl ?_, ?_⟩
        · rw [countBefore, if_pos hZero]
          rfl
        · rw [hZero]
          exact Nat.zero_le _
        · exact fun other _ _ => List.nil_prefix
      · rcases ih (target - measure piece) with
          ⟨front, hFront, hCount, hReached, hFewest⟩
        refine
          ⟨piece :: front, (List.prefix_cons_inj piece).mpr hFront, ?_,
            ?_, ?_⟩
        · rw [countBefore, if_neg hZero, hCount, total]
        · rcases hReached with hEnough | hAll
          · left
            rw [total]
            omega
          · exact Or.inr (congrArg (piece :: ·) hAll)
        · intro other hOther hEnough
          cases other with
          | nil => exact absurd (Nat.le_zero.mp hEnough) hZero
          | cons first other =>
              rcases List.cons_prefix_cons.mp hOther with ⟨rfl, hRest⟩
              rw [total] at hEnough
              exact
                (List.prefix_cons_inj first).mpr
                  (hFewest other hRest (by omega))

/- A target that some pieces at the front measure counts just these. -/
theorem countBefore_total
    {front ps : List Bytes}
    (hPos : ∀ piece ∈ ps, 0 < measure piece)
    (hFront : front <+: ps) :
    countBefore measure count ps (total measure front) =
      total count front := by
  induction ps generalizing front with
  | nil =>
      rw [List.prefix_nil.mp hFront]
      rfl
  | cons piece ps ih =>
      cases front with
      | nil =>
          rw [total, countBefore, if_pos rfl]
          rfl
      | cons first front =>
          rcases List.cons_prefix_cons.mp hFront with ⟨rfl, hRest⟩
          have hFirst := hPos first List.mem_cons_self
          rw [countBefore, total, if_neg (by omega),
            Nat.add_sub_cancel_left,
            ih (fun other hOther =>
              hPos other (List.mem_cons_of_mem first hOther)) hRest,
            total]

/- A farther target counts no less. -/
theorem countBefore_mono
    (measure count : Bytes → Nat)
    (ps : List Bytes)
    {a b : Nat}
    (hLe : a ≤ b) :
    countBefore measure count ps a ≤ countBefore measure count ps b := by
  rcases exists_countBefore measure count ps a with
    ⟨near, hNear, hNearCount, _, hFewest⟩
  rcases exists_countBefore measure count ps b with
    ⟨far, hFar, hFarCount, hReached, _⟩
  rw [hNearCount, hFarCount]
  rcases hReached with hEnough | rfl
  · exact
      total_le_of_isPrefix count
        (hFewest far hFar (Nat.le_trans hLe hEnough))
  · exact total_le_of_isPrefix count hNear

------------------------------------------------------------
-- Walking over a Text
------------------------------------------------------------

/-
  A walk over the text comes to stand before the byte at `column`,
  with `passed` units behind it.  From there it passes the byte
  and those that belong to it.
-/
inductive Visits (s : Bytes) : Nat → Nat → Prop where
| start : Visits s 0 0
| pass {column passed : Nat} {lead : UInt8} {rest : Bytes} :
    Visits s column passed →
      s.drop column = lead :: rest →
        Visits s (column + (1 + followers lead rest))
          (passed + units (lead :: rest.take (followers lead rest)))

/- The first boundary that is wanted, and its count. -/
structure IsFirst
    (s : Bytes)
    (wanted : Nat → Nat → Prop)
    (column passed : Nat) : Prop where
  visits : Visits s column passed
  holds : wanted column passed
  le :
    ∀ {other count : Nat},
      Visits s other count → wanted other count → column ≤ other

/- Bytes that belong to a piece already taken are dropped. -/
theorem piecesAfter_eq_pieces_drop
    (s : Bytes) :
    ∀ skip : Nat, piecesAfter skip s = pieces (s.drop skip) := by
  induction s with
  | nil =>
      intro skip
      rw [List.drop_nil]
      cases skip <;> rfl
  | cons lead rest ih =>
      intro skip
      cases skip with
      | zero => rfl
      | succ skip => exact ih skip

/- The first piece of a text, and the others. -/
theorem pieces_cons
    (lead : UInt8)
    (rest : Bytes) :
    pieces (lead :: rest) =
      (lead :: rest.take (followers lead rest)) ::
        pieces (rest.drop (followers lead rest)) := by
  rw [← piecesAfter_eq_pieces_drop]
  rfl

theorem length_piece
    (lead : UInt8)
    (rest : Bytes) :
    (lead :: rest.take (followers lead rest)).length =
      1 + followers lead rest := by
  rw [List.length_cons, List.length_take,
    Nat.min_eq_left (followers_le lead rest), Nat.add_comm]

/- No piece is empty. -/
theorem length_pos_of_mem_piecesAfter
    {piece : Bytes}
    (s : Bytes) :
    ∀ {skip : Nat}, piece ∈ piecesAfter skip s → 0 < piece.length := by
  induction s with
  | nil =>
      intro skip hPiece
      simp [piecesAfter] at hPiece
  | cons lead rest ih =>
      intro skip hPiece
      cases skip with
      | zero =>
          rcases List.mem_cons.mp hPiece with rfl | hRest
          · exact Nat.succ_pos _
          · exact ih hRest
      | succ skip => exact ih hPiece

/- From a boundary the walk goes on over the pieces behind it. -/
theorem visits_add
    {s : Bytes}
    {back : List Bytes}
    (front : List Bytes) :
    ∀ {column passed : Nat},
      Visits s column passed →
        pieces (s.drop column) = front ++ back →
          Visits s (column + total List.length front)
            (passed + total units front) := by
  induction front with
  | nil =>
      intro column passed hVisits _
      exact hVisits
  | cons piece front ih =>
      intro column passed hVisits hPieces
      cases hText : s.drop column with
      | nil =>
          rw [hText] at hPieces
          cases hPieces
      | cons lead rest =>
          rw [hText, pieces_cons, List.cons_append] at hPieces
          rcases List.cons.inj hPieces with ⟨hPiece, hRest⟩
          have hDrop :
              s.drop (column + (1 + followers lead rest)) =
                rest.drop (followers lead rest) := by
            rw [← List.drop_drop, hText, Nat.add_comm 1,
              List.drop_succ_cons]
          have hNext := ih (hVisits.pass hText) (by rw [hDrop, hRest])
          rw [total, total, ← hPiece, length_piece,
            ← Nat.add_assoc, ← Nat.add_assoc passed]
          exact hNext

/- The boundaries are where some pieces at the front end. -/
theorem visits_iff
    {s : Bytes}
    {column passed : Nat} :
    Visits s column passed ↔
      ∃ front,
        front <+: pieces s ∧
          column = total List.length front ∧
          passed = total units front := by
  constructor
  · intro hVisits
    have hSplit :
        ∃ front,
          pieces s = front ++ pieces (s.drop column) ∧
            column = total List.length front ∧
            passed = total units front := by
      induction hVisits with
      | start => exact ⟨[], rfl, rfl, rfl⟩
      | @pass column passed lead rest _ hText ih =>
          rcases ih with ⟨front, hPieces, hColumn, hPassed⟩
          refine
            ⟨front ++ [lead :: rest.take (followers lead rest)], ?_, ?_,
              ?_⟩
          · rw [← List.drop_drop, hText, Nat.add_comm 1,
              List.drop_succ_cons, List.append_assoc,
              List.singleton_append, ← pieces_cons, ← hText]
            exact hPieces
          · rw [total_append, ← hColumn, total, length_piece]
            rfl
          · rw [total_append, ← hPassed, total]
            rfl
    rcases hSplit with ⟨front, hPieces, hColumn, hPassed⟩
    exact ⟨front, ⟨_, hPieces.symm⟩, hColumn, hPassed⟩
  · rintro ⟨front, ⟨back, hPieces⟩, rfl, rfl⟩
    have hWalk := visits_add front Visits.start hPieces.symm
    rwa [Nat.zero_add, Nat.zero_add] at hWalk

/- An edge between two pieces is where those before it end. -/
theorem exists_front_of_isEdge
    (ps : List Bytes) :
    ∀ {column : Nat},
      IsEdge ps column →
        ∃ front, front <+: ps ∧ column = total List.length front := by
  induction ps with
  | nil =>
      intro column hEdge
      exact ⟨[], List.prefix_rfl, hEdge⟩
  | cons piece ps ih =>
      intro column hEdge
      rcases hEdge with hZero | ⟨hLe, hRest⟩
      · exact ⟨[], List.nil_prefix, hZero⟩
      · rcases ih hRest with ⟨front, hFront, hColumn⟩
        refine
          ⟨piece :: front, (List.prefix_cons_inj piece).mpr hFront, ?_⟩
        rw [total]
        omega

------------------------------------------------------------
-- Rounding
------------------------------------------------------------

variable {s : Bytes}

/- A later column of the editor is not before an earlier one. -/
theorem toByteColumn_mono
    {a b : Int}
    (hLe : a ≤ b) :
    toByteColumn s a ≤ toByteColumn s b := by
  unfold toByteColumn
  rw [bytesBefore_eq_countBefore, bytesBefore_eq_countBefore]
  exact countBefore_mono units List.length _ (Int.toNat_le_toNat hLe)

/-
  A column of the editor is at the first boundary that counts as
  much, or at the end if none does.
-/
theorem toByteColumn_rounds
    (s : Bytes)
    (character : Int) :
    (∃ passed,
        IsFirst s (fun _ count => max character 0 ≤ count)
          (toByteColumn s character) passed) ∨
      ((∀ {column passed : Nat},
          Visits s column passed → (passed : Int) < max character 0) ∧
        toByteColumn s character = s.length) := by
  have hTarget : ((character.toNat : Nat) : Int) = max character 0 := by
    omega
  rcases exists_countBefore units List.length (pieces s) character.toNat
    with ⟨front, hFront, hCount, hReached, hFewest⟩
  have hColumn : toByteColumn s character = total List.length front := by
    rw [toByteColumn, bytesBefore_eq_countBefore, hCount]
  by_cases hEnough : character.toNat ≤ total units front
  · refine
      Or.inl
        ⟨total units front, visits_iff.mpr ⟨front, hFront, hColumn, rfl⟩,
          ?_, ?_⟩
    · rw [← hTarget]
      exact Int.ofNat_le.mpr hEnough
    · intro column passed hVisits hWanted
      rcases visits_iff.mp hVisits with ⟨other, hOther, rfl, rfl⟩
      rw [← hTarget, Int.ofNat_le] at hWanted
      rw [hColumn]
      exact total_le_of_isPrefix List.length (hFewest other hOther hWanted)
  · rcases hReached with hNot | rfl
    · exact absurd hNot hEnough
    · refine Or.inr ⟨?_, hColumn.trans (total_length_pieces s)⟩
      intro column passed hVisits
      rcases visits_iff.mp hVisits with ⟨other, hOther, rfl, rfl⟩
      have hLe := total_le_of_isPrefix units hOther
      omega

/-
  A byte column is counted up to the first boundary that is not
  before it, and the way back leads to this boundary.
-/
theorem ofByteColumn_rounds
    (s : Bytes)
    (column : Nat) :
    IsFirst s (fun other _ => min column s.length ≤ other)
      (toByteColumn s (ofByteColumn s column))
      (ofByteColumn s column) := by
  rcases exists_countBefore List.length units (pieces s) column with
    ⟨front, hFront, hCount, hReached, hFewest⟩
  have hPassed : ofByteColumn s column = total units front := by
    rw [ofByteColumn, unitsBefore_eq_countBefore, hCount]
  have hBack :
      toByteColumn s (ofByteColumn s column) =
        total List.length front := by
    rw [hPassed, toByteColumn, Int.toNat_natCast,
      bytesBefore_eq_countBefore,
      countBefore_total (fun piece _ => units_pos piece) hFront]
  have hWhole := total_length_pieces s
  rw [hBack, hPassed]
  refine
    ⟨visits_iff.mpr ⟨front, hFront, rfl, rfl⟩, ?_, ?_⟩
  · rcases hReached with hEnough | rfl
    · exact Nat.le_trans (Nat.min_le_left _ _) hEnough
    · rw [hWhole]
      exact Nat.min_le_right _ _
  · intro other passed hVisits hWanted
    rcases visits_iff.mp hVisits with ⟨some, hSome, rfl, rfl⟩
    by_cases hInside : column ≤ s.length
    · rw [Nat.min_eq_left hInside] at hWanted
      exact total_le_of_isPrefix List.length (hFewest some hSome hWanted)
    · -- Past the end all pieces are counted, and none are left out.
      have hLe := total_le_of_isPrefix List.length hFront
      omega

/- A boundary is kept on the way to its count and back. -/
theorem columns_of_visits
    {column passed : Nat}
    (hVisits : Visits s column passed) :
    ofByteColumn s column = passed ∧ toByteColumn s passed = column := by
  rcases visits_iff.mp hVisits with ⟨front, hFront, rfl, rfl⟩
  constructor
  · rw [ofByteColumn, unitsBefore_eq_countBefore]
    exact
      countBefore_total
        (fun piece hPiece => length_pos_of_mem_piecesAfter s hPiece)
        hFront
  · rw [toByteColumn, Int.toNat_natCast, bytesBefore_eq_countBefore]
    exact countBefore_total (fun piece _ => units_pos piece) hFront

/- An ASCII byte continues no character. -/
theorem isContinuation_of_isAscii
    {b : UInt8}
    (hAscii : b < 0x80) :
    isContinuation b = false := by
  unfold isContinuation
  rw [Bool.and_eq_false_iff, decide_eq_false_iff_not, UInt8.not_le]
  exact Or.inl hAscii

/- The walk stands before every ASCII byte. -/
theorem exists_visits_of_isAscii
    {column : Nat}
    {b : UInt8}
    (hByte : s[column]? = some b)
    (hAscii : b < 0x80) :
    ∃ passed, Visits s column passed := by
  have hEdge :=
    isEdge_piecesAfter s (Nat.zero_le column) hByte
      (isContinuation_of_isAscii hAscii)
  rcases exists_front_of_isEdge _ hEdge with ⟨front, hFront, hColumn⟩
  exact ⟨_, visits_iff.mpr ⟨front, hFront, hColumn, rfl⟩⟩

/-
  On every byte string:

  A column of the editor is at the first boundary whose count is
  not less, a negative one counting as zero, and at the end of the
  text if there is no such boundary.

  A byte column, or the end if it is past that, has the count of
  the first boundary that is not before it, and the column of the
  editor with this count is that boundary.

  Both conversions keep the order.  Each boundary has one count,
  and is kept on the way there and back; and each ASCII byte stands
  at one.  No count is greater than the length of the text.
-/
theorem columns_round
    (s : Bytes) :
    (∀ character : Int,
        (∃ passed,
            IsFirst s (fun _ count => max character 0 ≤ count)
              (toByteColumn s character) passed) ∨
          ((∀ {column passed : Nat},
              Visits s column passed →
                (passed : Int) < max character 0) ∧
            toByteColumn s character = s.length)) ∧
      (∀ column : Nat,
        IsFirst s (fun other _ => min column s.length ≤ other)
          (toByteColumn s (ofByteColumn s column))
          (ofByteColumn s column)) ∧
      (∀ {a b : Int}, a ≤ b → toByteColumn s a ≤ toByteColumn s b) ∧
      (∀ {a b : Nat}, a ≤ b → ofByteColumn s a ≤ ofByteColumn s b) ∧
      (∀ {column passed : Nat},
        Visits s column passed →
          ofByteColumn s column = passed ∧
            toByteColumn s (ofByteColumn s column) = column) ∧
      (∀ {column : Nat} {b : UInt8},
        s[column]? = some b →
          b < 0x80 → ∃ passed, Visits s column passed) ∧
      ∀ column : Nat, ofByteColumn s column ≤ s.length := by
  refine
    ⟨toByteColumn_rounds s, ofByteColumn_rounds s, toByteColumn_mono,
      ofByteColumn_mono s, ?_, exists_visits_of_isAscii, ?_⟩
  · intro column passed hVisits
    rcases columns_of_visits hVisits with ⟨hPassed, hColumn⟩
    exact ⟨hPassed, by rw [hPassed, hColumn]⟩
  · intro column
    exact Nat.le_trans (ofByteColumn_le_length s column) (length_le s)

/-
  A letter, a lead byte without what it announces, a character of
  two units and another such lead byte.  The third column of the
  editor is inside the character, and so is the fourth byte.
-/
theorem columns_round_truncated :
    let s : Bytes := [0x61, 0xC3, 0xF0, 0x9F, 0x98, 0x80, 0xED]
    toByteColumn s 3 = 6 ∧
      IsFirst s (fun other _ => 4 ≤ other) 6 4 ∧
        toByteColumn s 2 ≤ toByteColumn s 3 ∧
          ofByteColumn s 4 ≤ ofByteColumn s 5 ∧
            toByteColumn s (ofByteColumn s 6) = 6 ∧
              ∃ passed, Visits s 0 passed := by
  intro s
  rcases columns_round s with
    ⟨_, hCount, hLater, hFarther, hKept, hAscii, _⟩
  have hInside : IsFirst s (fun other _ => 4 ≤ other) 6 4 := hCount 4
  exact
    ⟨by decide, hInside, hLater (by decide), hFarther (by decide),
      (hKept hInside.visits).2, hAscii rfl (by decide)⟩

end Utf16

end Marginalia

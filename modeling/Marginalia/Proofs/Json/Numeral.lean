import Mathlib.Algebra.Order.Floor.Semifield
import Mathlib.Data.Rat.Floor
import Mathlib.Tactic.Linarith
import Mathlib.Tactic.Positivity
import Marginalia.Json.Numeral

/-
  This file proves what the tests and roundings of a number in
  floating point come to, against its exact value: a number
  overflows if its size reaches the limit of the format, and
  cutting off its fraction gives the whole number below it, or the
  next one where the fraction is rounded up to it.

  The main statements are:
    * `Numeral.overflows_iff`
    * `Numeral.nearest_sub_le`, `Numeral.even_nearest`
    * `Numeral.wholePart_eq_succ_iff`
    * `Numeral.floor_le_truncated`
    * `Numeral.truncated_le_floor_succ`
    * `Numeral.toWord_of_whole`
-/

namespace Marginalia

namespace Numeral

------------------------------------------------------------
-- Sizes
------------------------------------------------------------

/- The value of a number without its sign. -/
def size (n : Numeral) : ℚ :=
  n.mantissa * 10 ^ n.scale

/- With a power of ten to multiply by, the size is whole. -/
theorem size_of_ofNat
    {n : Numeral}
    {k : Nat}
    (hScale : n.scale = .ofNat k) :
    n.size = (n.mantissa * 10 ^ k : Nat) := by
  rw [size, hScale, Int.ofNat_eq_natCast, zpow_natCast]
  push_cast
  rfl

/- With a power of ten to divide by, the size is a ratio. -/
theorem size_of_negSucc
    {n : Numeral}
    {k : Nat}
    (hScale : n.scale = .negSucc k) :
    n.size = n.mantissa / (10 ^ (k + 1) : Nat) := by
  rw [size, hScale, zpow_negSucc, div_eq_mul_inv]
  push_cast
  rfl

/- The whole part of a ratio is what the division gives. -/
theorem floor_size_of_negSucc
    {n : Numeral}
    {k : Nat}
    (hScale : n.scale = .negSucc k) :
    ⌊n.size⌋₊ = n.mantissa / 10 ^ (k + 1) := by
  rw [size_of_negSucc hScale, Nat.floor_div_eq_div]

------------------------------------------------------------
-- Overflow
------------------------------------------------------------

theorem limit_pos :
    0 < limit := by
  decide +kernel

/- The limit has no more digits than the powers not computed. -/
theorem limit_le_pow
    {k : Nat}
    (hLarge : 309 ≤ k) :
    limit ≤ 10 ^ k := by
  induction k, hLarge using Nat.le_induction with
  | base => decide +kernel
  | succ k _ ih =>
      exact ih.trans (Nat.pow_le_pow_right (by decide) (Nat.le_succ k))

/-
  The powers that are not computed are those whose comparison is
  known beforehand, so the test is the comparison with the limit.
-/
theorem overflows_iff
    (n : Numeral) :
    n.overflows = true ↔ (limit : ℚ) ≤ n.size := by
  cases hScale : n.scale with
  | ofNat k =>
      rw [size_of_ofNat hScale, Nat.cast_le]
      simp only [overflows, hScale, Bool.and_eq_true, bne_iff_ne,
        Bool.or_eq_true, decide_eq_true_eq]
      constructor
      · rintro ⟨hSome, hLarge | hReaches⟩
        · calc limit ≤ 10 ^ k := limit_le_pow hLarge
            _ ≤ n.mantissa * 10 ^ k :=
                Nat.le_mul_of_pos_left _ (Nat.pos_of_ne_zero hSome)
        · exact hReaches
      · intro hReaches
        refine ⟨?_, .inr hReaches⟩
        intro hNone
        rw [hNone, Nat.zero_mul] at hReaches
        exact absurd hReaches (Nat.not_le.mpr limit_pos)
  | negSucc k =>
      have hPos : (0 : ℚ) < (10 ^ (k + 1) : Nat) := by positivity
      rw [size_of_negSucc hScale, le_div_iff₀ hPos, ← Nat.cast_mul,
        Nat.cast_le]
      simp only [overflows, hScale, Bool.and_eq_true,
        decide_eq_true_eq]
      refine ⟨And.right, fun hReaches => ⟨?_, hReaches⟩⟩
      -- the mantissa is at least the power of ten it is divided by
      have hPower : 2 ^ k ≤ n.mantissa :=
        calc 2 ^ k ≤ 10 ^ k := Nat.pow_le_pow_left (by decide) k
          _ ≤ 10 ^ (k + 1) :=
              Nat.pow_le_pow_right (by decide) (Nat.le_succ k)
          _ ≤ limit * 10 ^ (k + 1) :=
              Nat.le_mul_of_pos_left _ limit_pos
          _ ≤ n.mantissa := hReaches
      have hSome : n.mantissa ≠ 0 := by
        have := Nat.two_pow_pos k
        omega
      exact (Nat.le_log2 hSome).mpr hPower

/- The largest number of the format, and the next power of ten. -/
example :
    overflows ⟨false, [49], [], [101, 51, 48, 56]⟩ = false ∧
      overflows ⟨false, [49], [], [101, 51, 48, 57]⟩ = true := by
  decide +kernel

------------------------------------------------------------
-- Rounding
------------------------------------------------------------

/- Rounding a ratio gives a neighbour of it. -/
theorem nearest_eq_or
    (num den : Nat) :
    nearest num den = num / den ∨ nearest num den = num / den + 1 := by
  unfold nearest
  dsimp only
  split
  · exact .inr rfl
  · exact .inl rfl

/- What is rounded off is at most one half. -/
theorem nearest_sub_le
    (num : Nat)
    {den : Nat}
    (hDen : 0 < den) :
    2 * num ≤ (2 * nearest num den + 1) * den ∧
      2 * nearest num den * den ≤ 2 * num + den := by
  have hSplit := Nat.div_add_mod' num den
  have hRest := Nat.mod_lt num hDen
  unfold nearest
  dsimp only
  split
  · next hUp =>
      rw [Nat.mul_add, Nat.add_mul, Nat.add_mul, Nat.mul_assoc]
      omega
  · next hDown =>
      rw [Nat.add_mul, Nat.mul_assoc]
      omega

/- Of two numbers that are equally near, the even one is taken. -/
theorem even_nearest
    {num den : Nat}
    (hDen : 0 < den)
    (hTie :
      2 * num = (2 * nearest num den + 1) * den ∨
        2 * nearest num den * den = 2 * num + den) :
    nearest num den % 2 = 0 := by
  have hSplit := Nat.div_add_mod' num den
  have hRest := Nat.mod_lt num hDen
  unfold nearest at hTie ⊢
  dsimp only at hTie ⊢
  split
  · next hUp =>
      rw [if_pos hUp, Nat.mul_add, Nat.add_mul, Nat.add_mul,
        Nat.mul_assoc] at hTie
      omega
  · next hDown =>
      rw [if_neg hDown, Nat.add_mul, Nat.mul_assoc] at hTie
      omega

/-
  An even number is reached from below if what is missing is at
  most one half.
-/
theorem le_nearest_iff
    {num den missing goal : Nat}
    (hDen : 0 < den)
    (hMissing : num + missing = goal * den)
    (hEven : goal % 2 = 0) :
    goal ≤ nearest num den ↔ 2 * missing ≤ den := by
  obtain ⟨hAbove, hBelow⟩ := nearest_sub_le num hDen
  constructor
  · intro hReached
    have := Nat.mul_le_mul_right den hReached
    rw [Nat.mul_assoc] at hBelow
    omega
  · intro hHalf
    by_contra hShort
    have hNext : (nearest num den + 1) * den ≤ goal * den :=
      Nat.mul_le_mul_right den (Nat.lt_of_not_le hShort)
    rw [Nat.add_mul, Nat.mul_assoc] at hAbove
    rw [Nat.add_mul] at hNext
    -- the number before the goal is as near, but it is odd
    have hTie : 2 * num = (2 * nearest num den + 1) * den := by
      rw [Nat.add_mul, Nat.mul_assoc]
      omega
    have hSame : nearest num den + 1 = goal := by
      apply Nat.eq_of_mul_eq_mul_right hDen
      rw [Nat.add_mul]
      omega
    have := even_nearest hDen (.inl hTie)
    omega

/- A ratio that is whole needs no rounding. -/
theorem nearest_mul
    (n : Nat)
    {den : Nat}
    (hDen : 0 < den) :
    nearest (n * den) den = n := by
  unfold nearest
  simp only [Nat.mul_mod_left, Nat.mul_div_left n hDen, Nat.mul_zero]
  rw [if_neg]
  omega

/- A whole part through multiplication and division. -/
theorem wholePart_eq
    (num den : Nat) :
    wholePart num den =
      nearest (num * 2 ^ (53 - width (num / den))) den /
        2 ^ (53 - width (num / den)) := by
  rw [wholePart, Nat.shiftLeft_eq, Nat.shiftRight_eq_div_pow]

/-
  However many places are kept, the whole part after rounding is
  the one from before, or the next number.
-/
theorem wholePart_between
    (num den : Nat) :
    num / den ≤ wholePart num den ∧
      wholePart num den ≤ num / den + 1 := by
  rw [wholePart_eq]
  generalize 53 - width (num / den) = places
  have hPos := Nat.two_pow_pos places
  -- without the rounding, the places are kept and dropped again
  have hFloor : num * 2 ^ places / den / 2 ^ places = num / den := by
    rw [Nat.div_div_eq_div_mul, Nat.mul_div_mul_right _ _ hPos]
  have hAtMost : num * 2 ^ places / den + 1 ≤
      (num / den + 1) * 2 ^ places := by
    rw [← hFloor, Nat.mul_comm (_ + 1)]
    exact Nat.lt_mul_div_succ _ hPos
  rcases nearest_eq_or (num * 2 ^ places) den with hDown | hUp
  · rw [hDown, hFloor]
    exact ⟨Nat.le_refl _, Nat.le_succ _⟩
  · rw [hUp]
    constructor
    · rw [← hFloor]
      exact Nat.div_le_div_right (Nat.le_succ _)
    · calc (num * 2 ^ places / den + 1) / 2 ^ places
          ≤ (num / den + 1) * 2 ^ places / 2 ^ places :=
            Nat.div_le_div_right hAtMost
        _ = num / den + 1 := Nat.mul_div_left _ hPos

/-
  The next number is taken if what is missing from it is at most
  half a unit of the last binary place that is kept.
-/
theorem wholePart_eq_succ_iff
    {num den : Nat}
    (hDen : 0 < den)
    (hSmall : num / den < 2 ^ 52) :
    wholePart num den = num / den + 1 ↔
      2 * ((den - num % den) * 2 ^ (53 - width (num / den))) ≤ den := by
  have hPlaces : 0 < 53 - width (num / den) := by
    unfold width
    split
    · decide
    · next hSome =>
        have := (Nat.log2_lt hSome).mpr hSmall
        omega
  have hAtMost := (wholePart_between num den).right
  have hRest := Nat.mod_lt num hDen
  rw [wholePart_eq] at hAtMost ⊢
  generalize 53 - width (num / den) = places at *
  have hPos := Nat.two_pow_pos places
  have hGoal : num * 2 ^ places + (den - num % den) * 2 ^ places =
      (num / den + 1) * 2 ^ places * den := by
    rw [← Nat.add_mul, Nat.mul_right_comm, Nat.add_one_mul]
    have := Nat.div_add_mod' num den
    congr 1
    omega
  have hEven : (num / den + 1) * 2 ^ places % 2 = 0 := by
    obtain ⟨fewer, rfl⟩ := Nat.exists_eq_add_of_lt hPlaces
    rw [Nat.zero_add, Nat.pow_succ, ← Nat.mul_assoc, Nat.mul_mod_left]
  rw [← le_nearest_iff hDen hGoal hEven, ← Nat.le_div_iff_mul_le hPos]
  omega

/- The whole part of a whole number is the number. -/
theorem wholePart_one
    (n : Nat) :
    wholePart n 1 = n := by
  rw [wholePart_eq, ← Nat.mul_one (n * _), nearest_mul _ Nat.one_pos,
    Nat.mul_div_left _ (Nat.two_pow_pos _)]

------------------------------------------------------------
-- Truncation
------------------------------------------------------------

/- A whole number that is not too large is left as it is. -/
theorem truncated_of_ofNat
    {n : Numeral}
    {k : Nat}
    (hScale : n.scale = .ofNat k)
    (hSmall : n.size < 10 ^ 10) :
    n.truncated = n.mantissa * 10 ^ k := by
  rw [truncated, hScale]
  dsimp only
  rw [wholePart_one]
  rw [size_of_ofNat hScale] at hSmall
  have hBound : n.mantissa * 10 ^ k < 10 ^ 10 := by
    exact_mod_cast hSmall
  by_cases hNone : n.mantissa = 0
  · rw [hNone, Nat.zero_mul, Nat.zero_mul]
  · have hPower : 10 ^ k < 10 ^ 10 :=
      Nat.lt_of_le_of_lt
        (Nat.le_mul_of_pos_left _ (Nat.pos_of_ne_zero hNone)) hBound
    have hFew : k < 10 := (Nat.pow_lt_pow_iff_right (by decide)).mp hPower
    rw [Nat.min_eq_left hFew.le]
    rfl

/-
  Of a ratio the division is left, or the next number.  A ratio
  that is not computed is below one.
-/
theorem truncated_of_negSucc
    {n : Numeral}
    {k : Nat}
    (hScale : n.scale = .negSucc k) :
    n.mantissa / 10 ^ (k + 1) ≤ n.truncated ∧
      n.truncated ≤ n.mantissa / 10 ^ (k + 1) + 1 := by
  rw [truncated, hScale]
  dsimp only
  split
  · exact wholePart_between n.mantissa (10 ^ (k + 1))
  · next hLong =>
      have hBelow : n.mantissa < 10 ^ (k + 1) :=
        calc n.mantissa < 2 ^ (n.mantissa.log2 + 1) :=
              Nat.lt_log2_self
          _ ≤ 2 ^ (k + 1) :=
              Nat.pow_le_pow_right (by decide) (by omega)
          _ ≤ 10 ^ (k + 1) := Nat.pow_le_pow_left (by decide) _
      rw [Nat.div_eq_of_lt hBelow]
      exact ⟨Nat.le_refl _, Nat.zero_le _⟩

/- Cutting off the fraction leaves no less than the whole part. -/
theorem floor_le_truncated
    {n : Numeral}
    (hSmall : n.size < 10 ^ 10) :
    ⌊n.size⌋₊ ≤ n.truncated := by
  cases hScale : n.scale with
  | ofNat k =>
      rw [truncated_of_ofNat hScale hSmall, size_of_ofNat hScale,
        Nat.floor_natCast]
  | negSucc k =>
      rw [floor_size_of_negSucc hScale]
      exact (truncated_of_negSucc hScale).left

/- It leaves the next number at most. -/
theorem truncated_le_floor_succ
    {n : Numeral}
    (hSmall : n.size < 10 ^ 10) :
    n.truncated ≤ ⌊n.size⌋₊ + 1 := by
  cases hScale : n.scale with
  | ofNat k =>
      rw [truncated_of_ofNat hScale hSmall, size_of_ofNat hScale,
        Nat.floor_natCast]
      exact Nat.le_succ _
  | negSucc k =>
      rw [floor_size_of_negSucc hScale]
      exact (truncated_of_negSucc hScale).right

/- A number without a fraction that fits is read as it is. -/
theorem toWord_of_whole
    {n : Numeral}
    {k : Nat}
    (hScale : n.scale = .ofNat k)
    (hSmall : n.size < 10 ^ 10)
    (hFits :
      Word.signed32 (Decimal.signed n.negative (n.mantissa * 10 ^ k)) =
        Decimal.signed n.negative (n.mantissa * 10 ^ k)) :
    n.toWord = Decimal.signed n.negative (n.mantissa * 10 ^ k) := by
  unfold toWord
  dsimp only
  rw [truncated_of_ofNat hScale hSmall]
  exact if_pos hFits

end Numeral

end Marginalia

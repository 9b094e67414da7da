import Marginalia.Text.Decimal
import Marginalia.Text.Utf8

/-
  This file proves that the decimal digits of a number stand for
  it, that ASCII texts are UTF-8, and that so are texts made of
  such that are.

  The main statements are:
    * `Utf8.isValid_append`
    * `Utf8.isValid_of_isAscii`
    * `Decimal.isDigit_of_mem_ofNat`
    * `Decimal.value_ofNat`
-/

namespace Marginalia

------------------------------------------------------------
-- UTF-8
------------------------------------------------------------

/-
  A text that may follow what is owed may be followed by one that
  is UTF-8.  The cases are those of the automaton.
-/
theorem Utf8.isValidAfter_append
    {rest : Bytes}
    (hRest : isValid rest = true)
    (s : Bytes) :
    ∀ (owed : Nat) (low high : UInt8),
      isValidAfter owed low high s = true →
        isValidAfter owed low high (s ++ rest) = true := by
  induction s with
  | nil =>
      intro owed low high hValid
      cases owed with
      | zero =>
          rw [List.nil_append, ← hRest, isValid]
          cases rest <;> rfl
      | succ owed => cases hValid
  | cons b s ih =>
      intro owed low high hValid
      rw [List.cons_append]
      cases owed with
      | zero =>
          rw [isValidAfter] at hValid ⊢
          cases hLead : continuation b with
          | none =>
              rw [hLead] at hValid
              cases hValid
          | some next =>
              rw [hLead] at hValid
              exact ih _ _ _ hValid
      | succ owed =>
          rw [isValidAfter] at hValid ⊢
          split
          · next hBetween =>
              rw [if_pos hBetween] at hValid
              exact ih _ _ _ hValid
          · next hOutside =>
              rw [if_neg hOutside] at hValid
              cases hValid

/- One text that is UTF-8 may follow another. -/
theorem Utf8.isValid_append
    {s rest : Bytes}
    (hFirst : isValid s = true)
    (hRest : isValid rest = true) :
    isValid (s ++ rest) = true :=
  isValidAfter_append hRest s _ _ _ hFirst

/- ASCII is UTF-8. -/
theorem Utf8.isValid_of_isAscii
    {s : Bytes}
    (hAscii : ∀ b ∈ s, b < 0x80) :
    isValid s = true := by
  unfold isValid
  induction s with
  | nil => rfl
  | cons b s ih =>
      have hLead : continuation b = some (0, 0x80, 0xBF) := by
        rw [continuation, if_pos (hAscii b List.mem_cons_self)]
      rw [isValidAfter, hLead]
      apply ih
      intro other hOther
      exact hAscii other (List.mem_cons_of_mem b hOther)

/- The digits lie next to each other. -/
theorem Ascii.toNat_of_isDigit
    {b : UInt8}
    (hDigit : isDigit b = true) :
    48 ≤ b.toNat ∧ b.toNat ≤ 57 := by
  simp only [isDigit, Bool.and_eq_true, decide_eq_true_eq,
    UInt8.le_iff_toNat_le] at hDigit
  exact hDigit

------------------------------------------------------------
-- Decimal Digits
------------------------------------------------------------

namespace Decimal

/- The byte of a digit, as a number. -/
theorem toNat_toUInt8_of_isDigit
    {c : Char}
    (hDigit : c.isDigit = true) :
    c.toNat.toUInt8.toNat = c.toNat ∧
      48 ≤ c.toNat ∧ c.toNat ≤ 57 := by
  have hRange : 48 ≤ c.toNat ∧ c.toNat ≤ 57 := by
    simpa [Char.isDigit, UInt32.le_iff_toNat_le] using hDigit
  refine ⟨?_, hRange⟩
  simp
  omega

/- All bytes of a number are digits. -/
theorem isDigit_of_mem_ofNat
    {b : UInt8}
    {n : Nat}
    (hMember : b ∈ ofNat n) :
    Ascii.isDigit b = true := by
  rcases List.mem_map.mp hMember with ⟨c, hDigits, hByte⟩
  have hDigit :=
    Nat.isDigit_of_mem_toDigits (by omega) (by omega) hDigits
  rcases toNat_toUInt8_of_isDigit hDigit with ⟨hSame, hRange⟩
  rw [← hByte]
  simp only [Ascii.isDigit, Bool.and_eq_true, decide_eq_true_eq,
    UInt8.le_iff_toNat_le, hSame]
  exact hRange

/- A number has digits. -/
theorem ofNat_ne_nil
    (n : Nat) :
    ofNat n ≠ [] := by
  unfold ofNat
  simp [Nat.toDigits_ne_nil]

/-
  Reading the bytes of digits is reading the digits.  The
  induction is on the digits.
-/
theorem foldl_map_toUInt8
    (digits : List Char) :
    ∀ start : Nat,
      (∀ c ∈ digits, c.isDigit = true) →
        (digits.map (fun c => c.toNat.toUInt8)).foldl
            (fun n b => n * 10 + (b - Ascii.zero).toNat) start =
          Nat.ofDigitChars 10 digits start := by
  induction digits with
  | nil =>
      intro start _
      rfl
  | cons c rest ih =>
      intro start hDigits
      have hDigit := hDigits c List.mem_cons_self
      rcases toNat_toUInt8_of_isDigit hDigit with ⟨hSame, hRange⟩
      have hZero : Ascii.zero ≤ c.toNat.toUInt8 := by
        rw [UInt8.le_iff_toNat_le, hSame]
        exact hRange.1
      have hByte :
          (c.toNat.toUInt8 - Ascii.zero).toNat = c.toNat - 48 := by
        rw [UInt8.toNat_sub_of_le _ _ hZero, hSame]
        rfl
      have hRest :=
        ih (start * 10 + (c.toNat - 48)) (fun other hOther =>
          hDigits other (List.mem_cons_of_mem c hOther))
      rw [List.map_cons, List.foldl_cons, hByte, hRest,
        Nat.ofDigitChars_cons, Nat.mul_comm 10 start]
      rfl

/- The digits of a number stand for it. -/
theorem value_ofNat
    (n : Nat) :
    value (ofNat n) = n := by
  have hDigits : ∀ c ∈ Nat.toDigits 10 n, c.isDigit = true :=
    fun c hMember =>
      Nat.isDigit_of_mem_toDigits (by omega) (by omega) hMember
  unfold value ofNat
  rw [foldl_map_toUInt8 _ 0 hDigits]
  exact Nat.ofDigitChars_ten_toDigits

/- Different numbers have different digits. -/
theorem ofNat_injective : Function.Injective ofNat := by
  intro m n hSame
  rw [← value_ofNat m, hSame, value_ofNat]

/- A minus sign is no digit, so signs do not matter. -/
theorem ofInt_injective : Function.Injective ofInt := by
  have hSign : ∀ m n : Nat, ofNat m ≠ Ascii.minus :: ofNat n := by
    intro m n hSame
    have hDigit : Ascii.isDigit Ascii.minus = true := by
      apply isDigit_of_mem_ofNat
      rw [hSame]
      exact List.mem_cons_self
    exact absurd hDigit (by decide)
  intro m n hSame
  cases m with
  | ofNat m =>
      cases n with
      | ofNat n => exact congrArg Int.ofNat (ofNat_injective hSame)
      | negSucc n => exact absurd hSame (hSign m (n + 1))
  | negSucc m =>
      cases n with
      | ofNat n => exact absurd hSame.symm (hSign n (m + 1))
      | negSucc n =>
          have hDigits : ofNat (m + 1) = ofNat (n + 1) :=
            (List.cons.inj hSame).2
          rw [Nat.succ.inj (ofNat_injective hDigits)]

end Decimal

end Marginalia

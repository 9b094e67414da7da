import Marginalia.Proofs.Document.Offsets
import Marginalia.Proofs.Text.Boundaries

/-
  This file proves that columns count characters as they should.
  A text that is the UTF-8 of some characters is cut just between
  them, and each counts for the units that UTF-16 has for it.  So
  both ways to count lead to the same character of a line, and a
  position leads to the same character of a document.

  Key definitions include:
    * `Utf8.ofChars`
    * `Utf16.charUnits`
  The main statements are:
    * `Utf16.pieces_ofChars`
    * `Utf16.visits_ofChars`
    * `Bytes.splitLines_join`
    * `Document.offsetOf_join`
    * `Document.columns_of_characters`
-/

namespace Marginalia

------------------------------------------------------------
-- Characters
------------------------------------------------------------

/- The UTF-8 of some characters. -/
def Utf8.ofChars (cs : List Char) : Bytes :=
  utf8 (String.ofList cs)

theorem Utf8.ofChars_eq_flatMap
    (cs : List Char) :
    ofChars cs = cs.flatMap String.utf8EncodeChar := by
  simp [ofChars, utf8, List.utf8Encode]

theorem Utf8.ofChars_cons
    (c : Char)
    (cs : List Char) :
    ofChars (c :: cs) = String.utf8EncodeChar c ++ ofChars cs := by
  rw [ofChars_eq_flatMap, ofChars_eq_flatMap, List.flatMap_cons]

theorem Utf8.isPrefix_ofChars
    {front cs : List Char}
    (hFront : front <+: cs) :
    ofChars front <+: ofChars cs := by
  rcases hFront with ⟨back, rfl⟩
  rw [ofChars_eq_flatMap, ofChars_eq_flatMap, List.flatMap_append]
  exact List.prefix_append _ _

namespace Utf16

/- The number of UTF-16 units of some characters. -/
def charUnits : List Char → Nat
| [] => 0
| c :: cs => (if c.toNat < 0x10000 then 1 else 2) + charUnits cs

/-
  A lead byte with just the continuation bytes that it announces is
  a piece of its own.
-/
theorem pieces_cons_append
    {lead : UInt8}
    {tail : Bytes}
    (hLength : announced lead = tail.length)
    (hTail : tail.all isContinuation = true)
    (rest : Bytes) :
    pieces (lead :: tail ++ rest) = (lead :: tail) :: pieces rest := by
  have hFollowers : followers lead (tail ++ rest) = tail.length := by
    unfold followers
    dsimp only
    rw [hLength, List.take_left, if_pos ⟨rfl, hTail⟩]
  rw [List.cons_append, pieces_cons, hFollowers, List.take_left,
    List.drop_left]

/- The lead bytes of each length, as numbers. -/
theorem announced_ofNat :
    (∀ n < 0x80, announced (UInt8.ofNat n) = 0) ∧
      (∀ n < 0x20, announced (UInt8.ofNat (n + 0xC0)) = 1) ∧
      (∀ n < 0x10, announced (UInt8.ofNat (n + 0xE0)) = 2) ∧
      ∀ n < 0x08, announced (UInt8.ofNat (n + 0xF0)) = 3 := by
  decide +kernel

theorem isContinuation_ofNat :
    ∀ n < 0x40, isContinuation (UInt8.ofNat (n + 0x80)) = true := by
  decide +kernel

/-
  The bytes of a character are a lead byte and what it announces.
  The cases are the lengths that there are.
-/
theorem utf8EncodeChar_shape
    (c : Char) :
    ∃ lead tail,
      String.utf8EncodeChar c = lead :: tail ∧
        announced lead = tail.length ∧
        tail.all isContinuation = true ∧
        (tail.length = 3 ↔ 0x10000 ≤ c.toNat) := by
  rcases announced_ofNat with ⟨hOne, hTwo, hThree, hFour⟩
  have hNext := fun n =>
    isContinuation_ofNat (n % 0x40) (Nat.mod_lt n (by decide))
  have hNumber : c.toNat = c.val.toNat := rfl
  rw [hNumber]
  unfold String.utf8EncodeChar
  dsimp only
  split
  · next hSmall =>
      exact ⟨_, [], rfl, hOne _ (by omega), rfl, by simp; omega⟩
  · split
    · next hSmall =>
        refine ⟨_, _, rfl, hTwo _ (Nat.mod_lt _ (by decide)), ?_, ?_⟩
        · simp only [List.all_cons, List.all_nil, hNext, Bool.and_true]
        · simp
          omega
    · split
      · next hSmall =>
          refine ⟨_, _, rfl, hThree _ (Nat.mod_lt _ (by decide)), ?_, ?_⟩
          · simp only [List.all_cons, List.all_nil, hNext, Bool.and_true]
          · simp
            omega
      · next hLarge =>
          refine ⟨_, _, rfl, hFour _ (Nat.mod_lt _ (by decide)), ?_, ?_⟩
          · simp only [List.all_cons, List.all_nil, hNext, Bool.and_true]
          · simp
            omega

/- A character is a piece of its own. -/
theorem pieces_utf8EncodeChar_append
    (c : Char)
    (rest : Bytes) :
    pieces (String.utf8EncodeChar c ++ rest) =
      String.utf8EncodeChar c :: pieces rest := by
  rcases utf8EncodeChar_shape c with
    ⟨lead, tail, hBytes, hLength, hTail, _⟩
  rw [hBytes, pieces_cons_append hLength hTail]

/- The pieces of a text in UTF-8 are its characters. -/
theorem pieces_ofChars
    (cs : List Char) :
    pieces (Utf8.ofChars cs) = cs.map String.utf8EncodeChar := by
  induction cs with
  | nil => rfl
  | cons c cs ih =>
      rw [Utf8.ofChars_cons, pieces_utf8EncodeChar_append, ih,
        List.map_cons]

/- Four bytes stand for a character of two units. -/
theorem units_utf8EncodeChar
    (c : Char) :
    units (String.utf8EncodeChar c) =
      if c.toNat < 0x10000 then 1 else 2 := by
  rcases utf8EncodeChar_shape c with ⟨lead, tail, hBytes, _, _, hFour⟩
  rw [units, hBytes, List.length_cons]
  by_cases hLarge : 0x10000 ≤ c.toNat
  · rw [if_pos (by omega), if_neg (by omega)]
  · rw [if_neg (by omega), if_pos (by omega)]

theorem total_units_map
    (cs : List Char) :
    total units (cs.map String.utf8EncodeChar) = charUnits cs := by
  induction cs with
  | nil => rfl
  | cons c cs ih =>
      rw [List.map_cons, total, units_utf8EncodeChar, ih, charUnits]

/- A walk over a text in UTF-8 comes to stand before each character. -/
theorem visits_ofChars
    {front cs : List Char}
    (hFront : front <+: cs) :
    Visits (Utf8.ofChars cs) (Utf8.ofChars front).length
      (charUnits front) := by
  refine
    visits_iff.mpr
      ⟨front.map String.utf8EncodeChar, ?_, ?_, ?_⟩
  · rw [pieces_ofChars]
    exact hFront.map String.utf8EncodeChar
  · rw [← pieces_ofChars, total_length_pieces]
  · exact (total_units_map front).symm

end Utf16

------------------------------------------------------------
-- Lines of Characters
------------------------------------------------------------

namespace Bytes

/- A text without line feeds is one line. -/
theorem splitLines_of_not_mem
    {line : Bytes}
    (hNone : Ascii.lf ∉ line) :
    splitLines line = [line] := by
  have hLines := splitLines_append_of_not_mem (y := []) rfl line hNone
  rwa [List.append_nil] at hLines

/- Lines without line feeds are the lines of the text made of them. -/
theorem splitLines_join
    (line : Bytes)
    (lines : List Bytes) :
    (∀ other ∈ line :: lines, Ascii.lf ∉ other) →
      splitLines (join [Ascii.lf] (line :: lines)) = line :: lines := by
  induction lines generalizing line with
  | nil =>
      intro hLines
      exact splitLines_of_not_mem (hLines line List.mem_cons_self)
  | cons next lines ih =>
      intro hLines
      have hRest :=
        ih next (fun other hOther =>
          hLines other (List.mem_cons_of_mem line hOther))
      have hFirst :=
        splitLines_of_not_mem (hLines line List.mem_cons_self)
      rw [join, List.append_assoc, List.singleton_append,
        splitLines_append_lf, hFirst, hRest, List.singleton_append]

/- The text of some lines up to a place in the one behind them. -/
theorem length_join_append
    (front : Bytes)
    (before : List Bytes) :
    (join [Ascii.lf] (before ++ [front])).length =
      spread before + front.length := by
  induction before with
  | nil => exact (Nat.zero_add _).symm
  | cons line before ih =>
      rcases
          List.exists_cons_of_ne_nil
            (List.append_ne_nil_of_right_ne_nil before
              (List.cons_ne_nil front [])) with
        ⟨next, others, hNext⟩
      rw [hNext] at ih
      rw [List.cons_append, hNext, join, List.length_append,
        List.length_append, ih, spread]
      simp
      omega

/- The text up to that place is the front of the whole text. -/
theorem isPrefix_join_append
    {front line : Bytes}
    (hFront : front <+: line)
    (behind before : List Bytes) :
    join [Ascii.lf] (before ++ [front]) <+:
      join [Ascii.lf] (before ++ line :: behind) := by
  induction before with
  | nil =>
      cases behind with
      | nil => exact hFront
      | cons next behind =>
          simp only [List.nil_append, join, List.append_assoc]
          exact hFront.trans (List.prefix_append _ _)
  | cons first before ih =>
      cases before with
      | nil =>
          simp only [List.cons_append, List.nil_append, join] at ih ⊢
          exact (List.prefix_append_right_inj _).mpr ih
      | cons next before =>
          simp only [List.cons_append, join] at ih ⊢
          exact (List.prefix_append_right_inj _).mpr ih

end Bytes

/- A line feed is a byte of no other character. -/
theorem Utf8.eq_newline_of_lf_mem
    {c : Char}
    (hByte : Ascii.lf ∈ String.utf8EncodeChar c) :
    c = '\n' := by
  rcases Utf16.utf8EncodeChar_shape c with
    ⟨lead, tail, hBytes, hLength, hTail, _⟩
  have hAlone : String.utf8EncodeChar c = [Ascii.lf] := by
    rw [hBytes] at hByte ⊢
    rcases List.mem_cons.mp hByte with rfl | hLater
    · rw [Utf16.lf_alone.2] at hLength
      rw [List.length_eq_zero_iff.mp hLength.symm]
    · have hContinues := List.all_eq_true.mp hTail _ hLater
      rw [Utf16.lf_alone.1] at hContinues
      cases hContinues
  -- Only the shortest of the four forms has a single byte.
  unfold String.utf8EncodeChar at hAlone
  dsimp only at hAlone
  split at hAlone
  · next hSmall =>
      have hNumber := congrArg UInt8.toNat (List.cons.inj hAlone).1
      rw [UInt8.toNat_ofNat', Nat.mod_eq_of_lt (by omega)] at hNumber
      exact Char.toNat_inj.mp hNumber
  · split at hAlone
    · cases (List.cons.inj hAlone).2
    · split at hAlone <;> cases (List.cons.inj hAlone).2

/- There is no line feed in a text of other characters. -/
theorem Utf8.lf_not_mem_ofChars
    {cs : List Char}
    (hNone : '\n' ∉ cs) :
    Ascii.lf ∉ ofChars cs := by
  rw [ofChars_eq_flatMap]
  intro hLf
  rcases List.mem_flatMap.mp hLf with ⟨c, hChar, hByte⟩
  rw [eq_newline_of_lf_mem hByte] at hChar
  exact hNone hChar

------------------------------------------------------------
-- Columns and Positions
------------------------------------------------------------

namespace Document

/-
  A place in one of some lines is found in the text made of them,
  behind the lines before it.
-/
theorem offsetOf_join
    {lines : List Bytes}
    {l : Nat}
    {line front : Bytes}
    {character : Int}
    (hLines : ∀ other ∈ lines, Ascii.lf ∉ other)
    (hLine : lines[l]? = some line)
    (hFront : front <+: line)
    (hColumn : Utf16.toByteColumn line character = front.length) :
    let before := Bytes.join [Ascii.lf] (lines.take l ++ [front])
    before <+: Bytes.join [Ascii.lf] lines ∧
      offsetOf (Bytes.join [Ascii.lf] lines) ⟨l, character⟩ =
        before.length := by
  intro before
  rcases List.getElem?_eq_some_iff.mp hLine with ⟨hLt, hGet⟩
  have hSplit : lines = lines.take l ++ line :: lines.drop (l + 1) := by
    rw [← hGet, List.getElem_cons_drop, List.take_append_drop]
  have hCount : (lines.take l).length = l := by
    rw [List.length_take, Nat.min_eq_left (Nat.le_of_lt hLt)]
  have hText :
      Bytes.splitLines (Bytes.join [Ascii.lf] lines) =
        lines.take l ++ line :: lines.drop (l + 1) := by
    rw [← hSplit]
    cases lines with
    | nil => cases hLine
    | cons first rest => exact Bytes.splitLines_join first rest hLines
  have hOffset :=
    offsetIn_append line (lines.drop (l + 1)) character (lines.take l)
  rw [hCount, ← hText] at hOffset
  constructor
  · have hBefore :=
      Bytes.isPrefix_join_append hFront (lines.drop (l + 1)) (lines.take l)
    rwa [← hSplit] at hBefore
  · rw [offsetOf, Int.toNat_natCast, hOffset, hColumn,
      Bytes.length_join_append]

/-
  On a line that is the UTF-8 of some characters, the bytes and the
  units of the first `k` of them are converted into each other.

  In a text of such lines, none of which has a line feed in it, the
  units of the first `k` characters of a line are the column whose
  offset is the length of the text up to the next character.
-/
theorem columns_of_characters :
    (∀ (cs : List Char) (k : Nat),
        let line := Utf8.ofChars cs
        let bytes := (Utf8.ofChars (cs.take k)).length
        let units := Utf16.charUnits (cs.take k)
        Utf16.ofByteColumn line bytes = units ∧
          Utf16.toByteColumn line units = bytes) ∧
      ∀ {lines : List (List Char)} {l : Nat} {cs : List Char} (k : Nat),
        (∀ other ∈ lines, '\n' ∉ other) →
          lines[l]? = some cs →
            let text := Bytes.join [Ascii.lf] (lines.map Utf8.ofChars)
            let before :=
              Bytes.join [Ascii.lf]
                ((lines.take l ++ [cs.take k]).map Utf8.ofChars)
            before <+: text ∧
              offsetOf text ⟨l, Utf16.charUnits (cs.take k)⟩ =
                before.length := by
  have hColumns :
      ∀ (cs : List Char) (k : Nat),
        Utf16.ofByteColumn (Utf8.ofChars cs)
              (Utf8.ofChars (cs.take k)).length =
            Utf16.charUnits (cs.take k) ∧
          Utf16.toByteColumn (Utf8.ofChars cs)
              (Utf16.charUnits (cs.take k)) =
            (Utf8.ofChars (cs.take k)).length :=
    fun cs k =>
      Utf16.columns_of_visits
        (Utf16.visits_ofChars (List.take_prefix k cs))
  refine ⟨hColumns, ?_⟩
  intro lines l cs k hLines hLine text before
  have hBytes : ∀ other ∈ lines.map Utf8.ofChars, Ascii.lf ∉ other := by
    intro other hOther
    rcases List.mem_map.mp hOther with ⟨chars, hChars, rfl⟩
    exact Utf8.lf_not_mem_ofChars (hLines chars hChars)
  have hSame : (lines.map Utf8.ofChars)[l]? = some (Utf8.ofChars cs) := by
    rw [List.getElem?_map, hLine, Option.map_some]
  have hBefore :
      before =
        Bytes.join [Ascii.lf]
          ((lines.map Utf8.ofChars).take l ++
            [Utf8.ofChars (cs.take k)]) := by
    rw [← List.map_take]
    exact congrArg _ (List.map_append)
  rw [hBefore]
  exact
    offsetOf_join hBytes hSame
      (Utf8.isPrefix_ofChars (List.take_prefix k cs)) (hColumns cs k).2

/-
  Two lines with characters of one to four bytes.  The last one is
  a surrogate pair, and the offset is the one behind it.
-/
theorem columns_of_characters_smile :
    let lines := ["é".toList, "a語😀b".toList]
    lines[1]? = some "a語😀b".toList ∧
      Utf16.charUnits ("a語😀b".toList.take 3) = 4 ∧
        offsetOf
            (Bytes.join [Ascii.lf] (lines.map Utf8.ofChars))
            ⟨1, 4⟩ =
          11 := by
  intro lines
  have hLines : ∀ other ∈ lines, '\n' ∉ other := by decide
  have hLine : lines[1]? = some "a語😀b".toList := rfl
  have hOffset := (columns_of_characters.2 3 hLines hLine).2
  exact ⟨hLine, by decide, hOffset.trans (by decide)⟩

end Document

end Marginalia

import Mathlib.Data.List.TakeWhile
import Marginalia.Comment.Lookup
import Marginalia.Proofs.Comment.Extraction
import Marginalia.Proofs.Token.Partition

/-
  This file proves when anything is left of the text of a comment:
  when one of its lines has a byte that trimming does not remove.

  A line comment that is widened over the white space around it
  does not lose its text.  The mark that it begins with stays as
  long as it was, because no mark goes on with white space; and
  white space that is not blank is text itself.

  Key definitions include:
    * `Bytes.Visible`
  The main statements are:
    * `Extract.joinLines_ne_nil_iff`
    * `Identifier.words_ne_nil`
    * `CommentLookup.exists_found_of_ofSpan`
    * `Marker.visible_stripLine_of_white`
    * `Extract.visible_content_of_visible`
-/

namespace Marginalia

/- What holds of the first 256 numbers as bytes holds of all bytes. -/
theorem Ascii.forall_of_forall_lt
    {p : UInt8 → Prop}
    (hAll : ∀ n < 256, p (UInt8.ofNat n))
    (b : UInt8) :
    p b := by
  have hByte := hAll b.toNat b.toNat_lt
  rwa [UInt8.ofNat_toNat] at hByte

------------------------------------------------------------
-- Visible Bytes
------------------------------------------------------------

namespace Bytes

variable {s t : Bytes}

/- The text has a byte that is no blank. -/
def Visible (s : Bytes) : Prop :=
  ∃ b ∈ s, Ascii.isBlank b = false

/- A text that has all bytes of a visible one is visible. -/
theorem visible_of_subset
    (hVisible : s.Visible)
    (hSubset : ∀ b ∈ s, b ∈ t) :
    t.Visible := by
  rcases hVisible with ⟨b, hByte, hNot⟩
  exact ⟨b, hSubset b hByte, hNot⟩

/- What fails the test is not dropped. -/
theorem mem_dropWhile_of_not
    {b : UInt8}
    {p : UInt8 → Bool}
    (hByte : b ∈ s)
    (hNot : p b = false) :
    b ∈ s.dropWhile p := by
  rw [← List.takeWhile_append_dropWhile (p := p) (l := s)] at hByte
  rcases List.mem_append.mp hByte with hTaken | hLeft
  · rw [List.mem_takeWhile_imp hTaken] at hNot
    cases hNot
  · exact hLeft

/- A text is visible if something is left once it is trimmed. -/
theorem trim_ne_nil_iff : trim s ≠ [] ↔ s.Visible := by
  constructor
  · intro hSome
    rcases List.exists_cons_of_ne_nil hSome with ⟨b, rest, hTrim⟩
    refine ⟨b, mem_of_mem_trim ?_, (trimmed_trim s).head b ?_⟩
    · rw [hTrim]
      exact List.mem_cons_self
    · rw [hTrim]
      rfl
  · rintro ⟨b, hByte, hNot⟩ hNil
    have hFront := mem_dropWhile_of_not hByte hNot
    have hBack :=
      mem_dropWhile_of_not (List.mem_reverse.mpr hFront) hNot
    unfold trim trimEnd at hNil
    rw [List.reverse_eq_nil_iff.mp hNil] at hBack
    cases hBack

/- The bytes of a slice are those at its columns. -/
theorem mem_slice_iff
    {b : UInt8}
    {start stop : Nat} :
    b ∈ s.slice start stop ↔
      ∃ column, start ≤ column ∧ column < stop ∧ s[column]? = some b := by
  unfold slice
  rw [List.mem_iff_getElem?]
  constructor
  · rintro ⟨i, hItem⟩
    have hLt : i < stop - start := by
      have hLength := (List.getElem?_eq_some_iff.mp hItem).1
      rw [List.length_take] at hLength
      omega
    rw [List.getElem?_take_of_lt hLt, List.getElem?_drop] at hItem
    exact ⟨start + i, by omega, by omega, hItem⟩
  · rintro ⟨column, hFrom, hTo, hItem⟩
    refine ⟨column - start, ?_⟩
    rw [List.getElem?_take_of_lt (by omega), List.getElem?_drop,
      Nat.add_sub_cancel' hFrom]
    exact hItem

/- A slice is cut in two at a column inside it. -/
theorem slice_append_slice
    {start middle stop : Nat}
    (hFrom : start ≤ middle)
    (hTo : middle ≤ stop) :
    s.slice start stop = s.slice start middle ++ s.slice middle stop := by
  have hSum : stop - start = middle - start + (stop - middle) := by omega
  unfold slice
  rw [hSum, List.take_add, List.drop_drop, Nat.add_sub_cancel' hFrom]

end Bytes

namespace Extract

/- Something is left of some lines if one of them is visible. -/
theorem joinLines_ne_nil_iff
    {lines : List Bytes} :
    joinLines lines ≠ [] ↔ ∃ line ∈ lines, line.Visible := by
  unfold joinLines
  constructor
  · intro hSome
    have hPieces :
        (lines.map Bytes.trim).filter (fun line => !line.isEmpty) ≠
          [] := by
      intro hNil
      rw [hNil] at hSome
      exact hSome rfl
    rcases List.exists_mem_of_ne_nil _ hPieces with ⟨piece, hPiece⟩
    rcases List.mem_filter.mp hPiece with ⟨hMember, hKept⟩
    rcases List.mem_map.mp hMember with ⟨line, hLine, rfl⟩
    refine ⟨line, hLine, Bytes.trim_ne_nil_iff.mp ?_⟩
    intro hNil
    rw [hNil] at hKept
    cases hKept
  · rintro ⟨line, hLine, hVisible⟩
    have hTrim := Bytes.trim_ne_nil_iff.mpr hVisible
    refine (Bytes.trimmed_join _ ?_).2 ?_
    · intro piece hPiece
      rcases List.mem_filter.mp hPiece with ⟨hMember, hKept⟩
      rcases List.mem_map.mp hMember with ⟨other, _, rfl⟩
      refine ⟨Bytes.trimmed_trim other, ?_⟩
      intro hNil
      rw [hNil] at hKept
      cases hKept
    · apply List.ne_nil_of_mem
      refine
        List.mem_filter.mpr
          ⟨List.mem_map.mpr ⟨line, hLine, rfl⟩, ?_⟩
      simpa using hTrim

end Extract

------------------------------------------------------------
-- Words
------------------------------------------------------------

namespace Identifier

variable {s : Bytes}

/- Squeezing keeps what is no space. -/
theorem squeeze_ne_nil
    (hSome : ∃ b ∈ s, b ≠ Ascii.space) :
    ∀ owed : Bool, squeeze owed s ≠ [] := by
  induction s with
  | nil =>
      rcases hSome with ⟨b, hByte, _⟩
      cases hByte
  | cons c rest ih =>
      intro owed
      unfold squeeze
      split
      · next hSpace =>
          rcases hSome with ⟨b, hByte, hNot⟩
          rcases List.mem_cons.mp hByte with rfl | hLater
          · exact absurd hSpace hNot
          · exact ih ⟨b, hLater, hNot⟩ true
      · split
        · exact List.cons_ne_nil _ _
        · exact List.cons_ne_nil _ _

/- A letter or a digit is no separator, and in lower case no space. -/
theorem kept_of_isAlphanumeric :
    ∀ b : UInt8,
      Ascii.isAlphanumeric b = true →
        isSeparator b = false ∧ Ascii.toLower b ≠ Ascii.space :=
  Ascii.forall_of_forall_lt (by decide +kernel)

/- Spreading keeps letters and digits, in lower case. -/
theorem toLower_mem_spread
    {b : UInt8}
    (hPart : Ascii.isAlphanumeric b = true)
    (hByte : b ∈ s) :
    ∀ before : Option UInt8, Ascii.toLower b ∈ spread before s := by
  induction s with
  | nil => cases hByte
  | cons c rest ih =>
      intro before
      unfold spread
      rcases List.mem_cons.mp hByte with rfl | hLater
      · rw [(kept_of_isAlphanumeric b hPart).1,
          if_neg Bool.false_ne_true]
        split
        · exact List.mem_cons_of_mem _ List.mem_cons_self
        · exact List.mem_cons_self
      · split
        · exact List.mem_cons_of_mem _ (ih hLater _)
        · split
          · exact
              List.mem_cons_of_mem _
                (List.mem_cons_of_mem _ (ih hLater _))
          · exact List.mem_cons_of_mem _ (ih hLater _)

/- An identifier has words, since it has a letter or a digit. -/
theorem words_ne_nil
    (hIdentifier : isIdentifier s = true) :
    words s ≠ [] := by
  unfold isIdentifier at hIdentifier
  rw [Bool.and_eq_true, List.any_eq_true] at hIdentifier
  rcases hIdentifier.2 with ⟨b, hByte, hPart⟩
  have hLower := (kept_of_isAlphanumeric b hPart).2
  exact
    squeeze_ne_nil
      ⟨Ascii.toLower b,
        Bytes.mem_dropWhile_of_not (p := (· == Ascii.space))
          (toLower_mem_spread hPart hByte none)
          (beq_eq_false_iff_ne.mpr hLower),
        hLower⟩
      false

end Identifier

/-
  A comment that a text is taken out of is found: the text is not
  empty, and the words of an identifier are not empty either.
-/
theorem CommentLookup.exists_found_of_ofSpan
    {lines : Array Bytes}
    {tokens : Nat → List Token}
    {span : CommentSpan}
    {scope : Scope}
    {extracted : ExtractedText}
    (hExtracted :
      (ExtractedText.ofSpan lines span scope).eval tokens =
        some extracted) :
    ∃ block,
      ofText lines span scope (some extracted) = .found block ∧
        block.range = span.toRange lines := by
  rw [ExtractedText.ofSpan, TokenQuery.eval_bind,
    TokenQuery.eval_pure] at hExtracted
  rcases Option.map_eq_some_iff.mp hExtracted with ⟨text, hText, rfl⟩
  have hSome : text ≠ [] := by
    rw [Extract.text?, TokenQuery.eval_bind,
      TokenQuery.eval_pure] at hText
    split at hText
    · cases hText
    · next hNot =>
        cases hText
        simpa using hNot
  rw [ofText, if_neg]
  · exact ⟨_, rfl, rfl⟩
  · rw [CommentBlock.spelled, List.isEmpty_iff]
    split
    · next hIdentifier => exact Identifier.words_ne_nil hIdentifier
    · exact hSome

------------------------------------------------------------
-- Marks of Line Comments
------------------------------------------------------------

namespace Marker

variable {s white before after : Bytes}

/- A run ends where bytes follow that do not belong to it. -/
theorem takeWhile_append_of_head
    {p : UInt8 → Bool}
    (hWhite : ∀ b ∈ white.head?, p b = false) :
    (s ++ white).takeWhile p = s.takeWhile p := by
  induction s with
  | nil =>
      cases white with
      | nil => rfl
      | cons b rest =>
          rw [List.nil_append, List.takeWhile_cons, hWhite b rfl]
          rfl
  | cons b rest ih =>
      rw [List.cons_append, List.takeWhile_cons, List.takeWhile_cons, ih]

/- No byte of a mark is white space. -/
theorem ne_of_isSpace :
    ∀ b : UInt8,
      Ascii.isSpace b = true →
        b ≠ Ascii.slash ∧ b ≠ Ascii.bang ∧ b ≠ Ascii.hash ∧
          b ≠ Ascii.percent ∧ b ≠ Ascii.semicolon ∧
            b ≠ Ascii.minus :=
  Ascii.forall_of_forall_lt (by decide +kernel)

/- A run of a byte ends where white space follows. -/
theorem runLength_append_of_head
    {b : UInt8}
    (hWhite : ∀ c ∈ white.head?, c ≠ b) :
    runLength b (s ++ white) = runLength b s := by
  unfold runLength
  rw [takeWhile_append_of_head]
  intro c hHead
  exact beq_eq_false_iff_ne.mpr (hWhite c hHead)

/- A byte that does not follow the text is the first one of the text. -/
theorem exists_of_append_eq_cons
    {b : UInt8}
    {rest : Bytes}
    (hWhite : ∀ c ∈ white.head?, c ≠ b)
    (hCons : s ++ white = b :: rest) :
    ∃ tail, s = b :: tail ∧ tail ++ white = rest := by
  cases s with
  | nil =>
      rw [List.nil_append] at hCons
      rw [hCons] at hWhite
      exact absurd rfl (hWhite b rfl)
  | cons c tail =>
      rw [List.cons_append, List.cons.injEq] at hCons
      exact ⟨tail, by rw [hCons.1], hCons.2⟩

/- A run is not longer than the text. -/
theorem runLength_le
    (b : UInt8)
    (s : Bytes) :
    runLength b s ≤ s.length :=
  (List.takeWhile_sublist _).length_le

/- A mark of hashes, with the bang that may stand behind them. -/
theorem lineMark_hash
    (rest : Bytes) :
    lineMark (Ascii.hash :: rest) =
      1 + runLength Ascii.hash rest +
        (if (rest.drop (runLength Ascii.hash rest)).head? =
            some Ascii.bang then 1 else 0) := by
  generalize hText : Ascii.hash :: rest = text
  fun_cases lineMark text with
  | case2 tail n more hBang =>
      have hRest : rest = tail := (List.cons.inj hText).2
      rw [Nat.add_sub_cancel_left] at hBang
      rw [hRest, hBang]
      rfl
  | case3 tail n hNoBang =>
      have hRest : rest = tail := (List.cons.inj hText).2
      rw [Nat.add_sub_cancel_left] at hNoBang
      rw [hRest, if_neg]
      · rfl
      · intro hHead
        rcases List.head?_eq_some_iff.mp hHead with ⟨more, hMore⟩
        exact hNoBang more hMore
  | case7 _ _ hNoHash _ _ _ => exact absurd hText.symm (hNoHash rest)
  | _ => exact absurd (List.cons.inj hText).1 (by decide)

/- The mark of hashes does not go on with white space. -/
theorem lineMark_hash_append_of_head
    (hWhite : ∀ b ∈ white.head?, Ascii.isSpace b = true)
    (rest : Bytes) :
    lineMark (Ascii.hash :: rest ++ white) =
      lineMark (Ascii.hash :: rest) := by
  have hBang : ∀ b ∈ white.head?, b ≠ Ascii.bang :=
    fun b hHead => (ne_of_isSpace b (hWhite b hHead)).2.1
  have hHash : ∀ b ∈ white.head?, b ≠ Ascii.hash :=
    fun b hHead => (ne_of_isSpace b (hWhite b hHead)).2.2.1
  rw [List.cons_append, lineMark_hash, lineMark_hash,
    runLength_append_of_head hHash,
    List.drop_append_of_le_length (runLength_le Ascii.hash rest)]
  -- After the hashes there is a bang in both texts, or in neither.
  congr 2
  cases rest.drop (runLength Ascii.hash rest) with
  | nil =>
      refine propext (iff_of_false ?_ (by simp))
      intro hHead
      exact hBang Ascii.bang hHead rfl
  | cons b tail => rfl

/- The mark of a line comment does not go on with white space. -/
theorem lineMark_append_of_head
    (hWhite : ∀ b ∈ white.head?, Ascii.isSpace b = true) :
    lineMark (s ++ white) = lineMark s := by
  have hSlash : ∀ b ∈ white.head?, b ≠ Ascii.slash :=
    fun b hHead => (ne_of_isSpace b (hWhite b hHead)).1
  have hBang : ∀ b ∈ white.head?, b ≠ Ascii.bang :=
    fun b hHead => (ne_of_isSpace b (hWhite b hHead)).2.1
  have hHash : ∀ b ∈ white.head?, b ≠ Ascii.hash :=
    fun b hHead => (ne_of_isSpace b (hWhite b hHead)).2.2.1
  have hPercent : ∀ b ∈ white.head?, b ≠ Ascii.percent :=
    fun b hHead => (ne_of_isSpace b (hWhite b hHead)).2.2.2.1
  have hSemicolon : ∀ b ∈ white.head?, b ≠ Ascii.semicolon :=
    fun b hHead => (ne_of_isSpace b (hWhite b hHead)).2.2.2.2.1
  have hMinus : ∀ b ∈ white.head?, b ≠ Ascii.minus :=
    fun b hHead => (ne_of_isSpace b (hWhite b hHead)).2.2.2.2.2
  fun_cases lineMark s with
  | case1 rest =>
      rw [List.cons_append, List.cons_append, lineMark,
        takeWhile_append_of_head]
      intro b hHead
      simp [hSlash b hHead, hBang b hHead]
  | case2 rest n tail hBangs =>
      refine (lineMark_hash_append_of_head hWhite rest).trans ?_
      rw [Nat.add_sub_cancel_left] at hBangs
      rw [lineMark_hash, hBangs]
      rfl
  | case3 rest n hNoBang =>
      refine (lineMark_hash_append_of_head hWhite rest).trans ?_
      rw [lineMark_hash, if_neg]
      · rfl
      · intro hHead
        rcases List.head?_eq_some_iff.mp hHead with ⟨tail, hTail⟩
        rw [Nat.add_sub_cancel_left] at hNoBang
        exact hNoBang tail hTail
  | case4 rest =>
      rw [List.cons_append, lineMark, runLength_append_of_head hPercent]
  | case5 rest =>
      rw [List.cons_append, lineMark,
        runLength_append_of_head hSemicolon]
  | case6 rest =>
      rw [List.cons_append, List.cons_append, lineMark,
        runLength_append_of_head hMinus]
  | case7 _ hNoSlash hNoHash hNoPercent hNoSemicolon hNoMinus =>
      -- A mark of the longer text would be one of the text itself.
      generalize hWhole : s ++ white = whole
      fun_cases lineMark whole with
      | case1 rest =>
          rcases exists_of_append_eq_cons hSlash hWhole with
            ⟨tail, rfl, hTail⟩
          rcases exists_of_append_eq_cons hSlash hTail with
            ⟨tail, rfl, _⟩
          exact absurd rfl (hNoSlash tail)
      | case2 rest _ _ _ | case3 rest _ _ =>
          rcases exists_of_append_eq_cons hHash hWhole with
            ⟨tail, rfl, _⟩
          exact absurd rfl (hNoHash tail)
      | case4 rest =>
          rcases exists_of_append_eq_cons hPercent hWhole with
            ⟨tail, rfl, _⟩
          exact absurd rfl (hNoPercent tail)
      | case5 rest =>
          rcases exists_of_append_eq_cons hSemicolon hWhole with
            ⟨tail, rfl, _⟩
          exact absurd rfl (hNoSemicolon tail)
      | case6 rest =>
          rcases exists_of_append_eq_cons hMinus hWhole with
            ⟨tail, rfl, hTail⟩
          rcases exists_of_append_eq_cons hMinus hTail with
            ⟨tail, rfl, _⟩
          exact absurd rfl (hNoMinus tail)
      | case7 => rfl

/- Flattening tabs keeps what is no blank. -/
theorem mem_flattenTabs_of_not
    {b : UInt8}
    (hByte : b ∈ s)
    (hNot : Ascii.isBlank b = false) :
    b ∈ flattenTabs s := by
  induction s with
  | nil => cases hByte
  | cons c rest ih =>
      unfold flattenTabs
      split
      · next hBlank =>
          rcases List.mem_cons.mp hByte with rfl | hLater
          · rcases hBlank with rfl | rfl
            · cases hNot
            · cases hNot
          · exact List.mem_cons_of_mem _ (ih hLater)
      · exact hByte

/-
  What is left of a line comment is what stands behind its mark.
-/
theorem visible_stripLine_iff :
    Bytes.Visible (stripLine s) ↔
      Bytes.Visible
        ((s.dropWhile Ascii.isBlank).drop
          (lineMark (s.dropWhile Ascii.isBlank))) := by
  unfold stripLine
  dsimp only
  constructor
  · rintro ⟨b, hByte, hNot⟩
    refine ⟨b, ?_, hNot⟩
    rcases List.mem_append.mp hByte with hFront | hRest
    · rcases List.mem_append.mp hFront with hLead | hMark
      · rw [List.mem_takeWhile_imp hLead] at hNot
        cases hNot
      · rw [List.eq_of_mem_replicate hMark] at hNot
        cases hNot
    · rcases mem_flattenTabs hRest with rfl | hIn
      · cases hNot
      · exact hIn
  · rintro ⟨b, hByte, hNot⟩
    exact
      ⟨b,
        List.mem_append_right _ (mem_flattenTabs_of_not hByte hNot),
        hNot⟩

/-
  A line comment keeps its text if white space around it is taken
  in.  Blanks in front are passed over like those that were there;
  other white space in front is text, and there is no mark then.
-/
theorem visible_stripLine_of_white
    (hBefore : ∀ b ∈ before, Ascii.isSpace b = true)
    (hAfter : ∀ b ∈ after, Ascii.isSpace b = true)
    (hVisible : Bytes.Visible (stripLine s)) :
    Bytes.Visible (stripLine (before ++ s ++ after)) := by
  rw [visible_stripLine_iff] at hVisible ⊢
  rw [List.append_assoc, List.dropWhile_append]
  split
  · have hSome : (s.dropWhile Ascii.isBlank).isEmpty = false := by
      rw [Bool.eq_false_iff, ne_eq, List.isEmpty_iff]
      intro hNil
      rw [hNil, List.drop_nil] at hVisible
      rcases hVisible with ⟨b, hByte, _⟩
      cases hByte
    rw [List.dropWhile_append, hSome, if_neg Bool.false_ne_true,
      lineMark_append_of_head
        (fun b hHead => hAfter b (List.mem_of_mem_head? hHead)),
      List.drop_append]
    exact
      Bytes.visible_of_subset hVisible
        (fun b hByte => List.mem_append_left _ hByte)
  · next hSome =>
      rw [List.isEmpty_iff] at hSome
      rcases List.exists_cons_of_ne_nil hSome with ⟨b, rest, hDrop⟩
      have hByte : b ∈ before := by
        apply (List.dropWhile_sublist Ascii.isBlank).subset
        rw [hDrop]
        exact List.mem_cons_self
      have hNot : Ascii.isBlank b = false := by
        apply Bytes.head?_dropWhile_isBlank before b
        rw [hDrop]
        rfl
      have hNoMark : lineMark (b :: rest ++ (s ++ after)) = 0 := by
        refine lineMark_append_of_head (s := []) ?_
        intro other hHead
        cases hHead
        exact hBefore b hByte
      rw [hDrop, hNoMark]
      exact ⟨b, List.mem_cons_self, hNot⟩

end Marker

------------------------------------------------------------
-- Parts of Lines
------------------------------------------------------------

/- The tokens of a line cover all its columns. -/
theorem Tokens.exists_mem_of_lt
    {length column : Nat}
    {tokens : List Token}
    (hPartition : Partition length tokens)
    (hColumn : column < length) :
    ∃ t ∈ tokens, t.start ≤ column ∧ column < t.stop := by
  have hFirst : ∀ t ∈ tokens.head?, t.start ≤ column := by
    intro t hHead
    rw [hPartition.start_of_first t hHead]
    exact Nat.zero_le column
  have hLast : ∀ t ∈ tokens.getLast?, column < t.stop := by
    intro t hEnd
    rw [hPartition.stop_of_last t hEnd]
    exact hColumn
  have hSome : tokens ≠ [] := by
    rw [ne_eq, hPartition.eq_nil_iff]
    omega
  have hChain := hPartition.start_of_next
  clear hPartition
  induction tokens with
  | nil => exact absurd rfl hSome
  | cons t rest ih =>
      by_cases hHere : column < t.stop
      · exact ⟨t, List.mem_cons_self, hFirst t rfl, hHere⟩
      · cases rest with
        | nil => exact absurd (hLast t rfl) hHere
        | cons next rest =>
            rw [List.isChain_cons_cons] at hChain
            have hNext : ∀ u ∈ (next :: rest).head?, u.start ≤ column := by
              intro u hHead
              cases hHead
              rw [hChain.1]
              exact Nat.le_of_not_lt hHere
            rcases
                ih hNext
                  (by simpa [List.getLast?_cons_cons] using hLast)
                  (List.cons_ne_nil _ _) hChain.2 with
              ⟨u, hMember, hCovers⟩
            exact ⟨u, List.mem_cons_of_mem _ hMember, hCovers⟩

namespace Extract

variable {text : Bytes}
variable {tokens : List Token}
variable {start stop wideStart wideStop : Nat}

/-
  The content of a line is visible if a token that is no mark
  covers a byte that is no blank.
-/
theorem visible_content_iff :
    Bytes.Visible (tokens.flatMap (tokenContent text start stop)) ↔
      ∃ column b t,
        start ≤ column ∧ column < stop ∧ text[column]? = some b ∧
          Ascii.isBlank b = false ∧
            t ∈ tokens ∧ t.isMark = false ∧
              t.start ≤ column ∧ column < t.stop := by
  constructor
  · rintro ⟨b, hByte, hNot⟩
    rcases List.mem_flatMap.mp hByte with ⟨t, hToken, hIn⟩
    unfold tokenContent at hIn
    dsimp only at hIn
    split at hIn
    · rw [List.eq_of_mem_replicate hIn] at hNot
      cases hNot
    · next hMark =>
        rcases Bytes.mem_slice_iff.mp hIn with
          ⟨column, hFrom, hTo, hItem⟩
        exact
          ⟨column, b, t, by omega, by omega, hItem, hNot, hToken,
            Bool.eq_false_iff.mpr hMark, by omega, by omega⟩
  · rintro
      ⟨column, b, t, hFrom, hTo, hItem, hNot, hToken, hMark, hStart,
        hStop⟩
    refine ⟨b, List.mem_flatMap.mpr ⟨t, hToken, ?_⟩, hNot⟩
    unfold tokenContent
    dsimp only
    rw [hMark, if_neg Bool.false_ne_true]
    exact
      Bytes.mem_slice_iff.mpr ⟨column, by omega, by omega, hItem⟩

/- Content stays visible between columns that are wider apart. -/
theorem visible_content_of_visible
    (hFrom : wideStart ≤ start)
    (hTo : stop ≤ wideStop)
    (hVisible :
      Bytes.Visible (tokens.flatMap (tokenContent text start stop))) :
    Bytes.Visible
      (tokens.flatMap (tokenContent text wideStart wideStop)) := by
  rw [visible_content_iff] at hVisible ⊢
  rcases hVisible with ⟨column, b, t, hStart, hStop, hRest⟩
  exact ⟨column, b, t, by omega, by omega, hRest⟩

/- Where there is no mark, a visible line has visible content. -/
theorem visible_content_of_not_marked
    (hPartition : Tokens.Partition text.length tokens)
    (hUnmarked : tokens.any (meetsMark start stop) = false)
    (hVisible : Bytes.Visible (text.slice start stop)) :
    Bytes.Visible (tokens.flatMap (tokenContent text start stop)) := by
  rcases hVisible with ⟨b, hByte, hNot⟩
  rcases Bytes.mem_slice_iff.mp hByte with ⟨column, hFrom, hTo, hItem⟩
  have hLength := (List.getElem?_eq_some_iff.mp hItem).1
  rcases Tokens.exists_mem_of_lt hPartition hLength with
    ⟨t, hToken, hStart, hStop⟩
  have hMark : t.isMark = false := by
    have hMeets := List.any_eq_false.mp hUnmarked t hToken
    unfold meetsMark at hMeets
    have hColumns : max t.start start < min t.stop stop := by omega
    simpa [hColumns] using hMeets
  exact
    visible_content_iff.mpr
      ⟨column, b, t, hFrom, hTo, hItem, hNot, hToken, hMark, hStart,
        hStop⟩

/- A mark that columns meet is met by columns wider apart. -/
theorem marked_of_marked
    (hFrom : wideStart ≤ start)
    (hTo : stop ≤ wideStop)
    (hMarked : tokens.any (meetsMark start stop) = true) :
    tokens.any (meetsMark wideStart wideStop) = true := by
  rcases List.any_eq_true.mp hMarked with ⟨t, hToken, hMeets⟩
  refine List.any_eq_true.mpr ⟨t, hToken, ?_⟩
  unfold meetsMark at hMeets ⊢
  rw [Bool.and_eq_true, decide_eq_true_eq] at hMeets ⊢
  exact ⟨hMeets.1, by omega⟩

end Extract

end Marginalia

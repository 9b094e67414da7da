import Marginalia.Proofs.Comment.Words

/-
  This file proves how identifiers are spelled out.  Whatever the
  bytes are, the words come out in lower case with one space
  between two of them.  Nothing but separators is lost, and what is
  spelled out already stays as it is.

  An identifier has a letter or a digit, so something is left of
  it.  Hence a comment whose text is not empty is always found: no
  text is lost by spelling it out.

  Key definitions include:
    * `Identifier.IsPlain`
    * `Identifier.Spelled`
  The main statements are:
    * `Identifier.spelled_words`
    * `Identifier.words_of_spelled`
    * `Identifier.filter_words`
    * `CommentLookup.eval_compute_eq_emptyAfterStrip_iff`
    * `Identifier.words_spell`
-/

namespace Marginalia

namespace Identifier

------------------------------------------------------------
-- Spelled Texts
------------------------------------------------------------

/- The byte is no upper-case letter, and no separator but the space. -/
structure IsPlain (b : UInt8) : Prop where
  lower : Ascii.isUpper b = false
  separates : isSeparator b = true → b = Ascii.space

/-
  Words in lower case, with one space between two of them and none
  at the ends.
-/
structure Spelled (s : Bytes) : Prop where
  head : s.head? ≠ some Ascii.space
  last : s.getLast? ≠ some Ascii.space
  single : s.IsChain (fun a b => a ≠ Ascii.space ∨ b ≠ Ascii.space)
  plain : ∀ b ∈ s, IsPlain b

/- A byte that separates nothing is plain in lower case. -/
theorem toLower_of_not_isSeparator :
    ∀ b : UInt8,
      isSeparator b = false →
        Ascii.isUpper (Ascii.toLower b) = false ∧
          isSeparator (Ascii.toLower b) = false :=
  Ascii.forall_of_forall_lt (by decide +kernel)

/- Separators have no case. -/
theorem isSeparator_toLower :
    ∀ b : UInt8, isSeparator (Ascii.toLower b) = isSeparator b :=
  Ascii.forall_of_forall_lt (by decide +kernel)

/- A byte of an identifier is a letter or a digit, or separates. -/
theorem isLower_or_isDigit_toLower :
    ∀ b : UInt8,
      isPart b = true →
        isSeparator b = false →
          Ascii.isLower (Ascii.toLower b) = true ∨
            Ascii.isDigit (Ascii.toLower b) = true :=
  Ascii.forall_of_forall_lt (by decide +kernel)

theorem isPlain_space : IsPlain Ascii.space :=
  ⟨rfl, fun _ => rfl⟩

theorem isPlain_toLower
    {b : UInt8}
    (hKept : isSeparator b = false) :
    IsPlain (Ascii.toLower b) := by
  rcases toLower_of_not_isSeparator b hKept with ⟨hLower, hNot⟩
  refine ⟨hLower, ?_⟩
  intro hSeparator
  rw [hNot] at hSeparator
  cases hSeparator

------------------------------------------------------------
-- Spreading and Squeezing
------------------------------------------------------------

/- Spreading leaves nothing but plain bytes. -/
theorem isPlain_of_mem_spread
    {b : UInt8}
    (s : Bytes) :
    ∀ {before : Option UInt8}, b ∈ spread before s → IsPlain b := by
  induction s with
  | nil =>
      intro before hByte
      cases hByte
  | cons c rest ih =>
      intro before hByte
      unfold spread at hByte
      split at hByte
      · rcases List.mem_cons.mp hByte with rfl | hLater
        · exact isPlain_space
        · exact ih hLater
      · next hNot =>
          have hKept := isPlain_toLower (Bool.eq_false_iff.mpr hNot)
          split at hByte
          · rcases List.mem_cons.mp hByte with rfl | hLower
            · exact isPlain_space
            · rcases List.mem_cons.mp hLower with rfl | hLater
              · exact hKept
              · exact ih hLater
          · rcases List.mem_cons.mp hByte with rfl | hLater
            · exact hKept
            · exact ih hLater

/- Plain bytes stay as they are. -/
theorem spread_of_isPlain
    (s : Bytes) :
    ∀ {before : Option UInt8},
      (∀ b ∈ s, IsPlain b) → spread before s = s := by
  induction s with
  | nil =>
      intro before _
      rfl
  | cons b rest ih =>
      intro before hPlain
      have hFirst := hPlain b List.mem_cons_self
      have hRest := fun other hOther =>
        hPlain other (List.mem_cons_of_mem b hOther)
      unfold spread
      split
      · next hSeparator => rw [hFirst.separates hSeparator, ih hRest]
      · have hNoBoundary : isBoundary before b rest.head? = false := by
          rw [isBoundary, hFirst.lower, Bool.false_and]
        have hSame : Ascii.toLower b = b := by
          rw [Ascii.toLower, hFirst.lower, if_neg Bool.false_ne_true]
        rw [hNoBoundary, if_neg Bool.false_ne_true, hSame, ih hRest]

/- Squeezing adds nothing but spaces. -/
theorem mem_of_mem_squeeze
    {b : UInt8}
    (s : Bytes) :
    ∀ {owed : Bool}, b ∈ squeeze owed s → b ∈ s ∨ b = Ascii.space := by
  induction s with
  | nil =>
      intro owed hByte
      cases hByte
  | cons c rest ih =>
      intro owed hByte
      unfold squeeze at hByte
      have hRest : ∀ {owed : Bool},
          b ∈ squeeze owed rest → b ∈ c :: rest ∨ b = Ascii.space :=
        fun hLater => (ih hLater).imp_left (List.mem_cons_of_mem c)
      split at hByte
      · exact hRest hByte
      · split at hByte
        · rcases List.mem_cons.mp hByte with rfl | hTail
          · exact Or.inr rfl
          · rcases List.mem_cons.mp hTail with rfl | hLater
            · exact Or.inl List.mem_cons_self
            · exact hRest hLater
        · rcases List.mem_cons.mp hByte with rfl | hLater
          · exact Or.inl List.mem_cons_self
          · exact hRest hLater

/- What is squeezed has no two spaces in a row and none at its end. -/
theorem squeeze_single
    (s : Bytes) :
    ∀ owed : Bool,
      (squeeze owed s).IsChain
          (fun a b => a ≠ Ascii.space ∨ b ≠ Ascii.space) ∧
        (squeeze owed s).getLast? ≠ some Ascii.space := by
  induction s with
  | nil =>
      intro owed
      exact ⟨List.isChain_nil, by simp [squeeze]⟩
  | cons b rest ih =>
      intro owed
      unfold squeeze
      split
      · exact ih true
      · next hByte =>
          rcases ih false with ⟨hChain, hLast⟩
          have hFirst :
              (b :: squeeze false rest).IsChain
                  (fun a b => a ≠ Ascii.space ∨ b ≠ Ascii.space) ∧
                (b :: squeeze false rest).getLast? ≠
                  some Ascii.space := by
            refine ⟨List.isChain_cons.mpr ⟨?_, hChain⟩, ?_⟩
            · exact fun _ _ => Or.inl hByte
            · rw [List.getLast?_cons]
              cases hEnd : (squeeze false rest).getLast? with
              | none => simpa using hByte
              | some c =>
                  rw [hEnd] at hLast
                  exact hLast
          split
          · refine
              ⟨List.isChain_cons_cons.mpr ⟨Or.inr hByte, hFirst.1⟩, ?_⟩
            rw [List.getLast?_cons_cons]
            exact hFirst.2
          · exact hFirst

/-
  What has no two spaces in a row and none at its end is squeezed
  already.  A space that is owed comes out before it.
-/
theorem squeeze_of_single
    (s : Bytes) :
    s.IsChain (fun a b => a ≠ Ascii.space ∨ b ≠ Ascii.space) →
      s.getLast? ≠ some Ascii.space →
        squeeze false s = s ∧
          (s ≠ [] →
            s.head? ≠ some Ascii.space →
              squeeze true s = Ascii.space :: s) := by
  induction s with
  | nil =>
      intro _ _
      exact ⟨rfl, fun hSome => absurd rfl hSome⟩
  | cons b rest ih =>
      intro hChain hLast
      rcases List.isChain_cons.mp hChain with ⟨hNext, hRest⟩
      rw [List.getLast?_cons] at hLast
      have hEnd : rest.getLast? ≠ some Ascii.space := by
        intro hSpace
        rw [hSpace] at hLast
        exact hLast rfl
      rcases ih hRest hEnd with ⟨hSame, hOwed⟩
      constructor
      · unfold squeeze
        split
        · next hByte =>
            subst hByte
            have hSome : rest ≠ [] := by
              rintro rfl
              exact hLast rfl
            refine hOwed hSome ?_
            intro hHead
            exact (hNext _ hHead).elim (fun h => h rfl) (fun h => h rfl)
        · rw [if_neg Bool.false_ne_true, hSame]
      · intro _ hHead
        have hByte : b ≠ Ascii.space :=
          fun hIs => hHead (congrArg some hIs)
        unfold squeeze
        rw [if_neg hByte, if_pos rfl, hSame]

------------------------------------------------------------
-- Words
------------------------------------------------------------

/- No space is left at the front. -/
theorem head?_dropWhile_ne_space
    (s : Bytes) :
    (s.dropWhile (· == Ascii.space)).head? ≠ some Ascii.space := by
  intro hHead
  have hNot := List.head?_dropWhile_not (· == Ascii.space) s
  rw [hHead] at hNot
  cases hNot

theorem head?_squeeze_false
    {s : Bytes}
    (hHead : s.head? ≠ some Ascii.space) :
    (squeeze false s).head? = s.head? := by
  cases s with
  | nil => rfl
  | cons b rest =>
      have hByte : b ≠ Ascii.space := fun hIs => hHead (congrArg some hIs)
      rw [squeeze, if_neg hByte, if_neg Bool.false_ne_true]
      rfl

/- The words of any text are spelled out. -/
theorem spelled_words
    (s : Bytes) :
    Spelled (words s) := by
  have hHead := head?_dropWhile_ne_space (spread none s)
  rcases squeeze_single ((spread none s).dropWhile (· == Ascii.space))
      false with
    ⟨hSingle, hLast⟩
  refine ⟨?_, hLast, hSingle, ?_⟩
  · rw [words, head?_squeeze_false hHead]
    exact hHead
  · intro b hByte
    rcases mem_of_mem_squeeze _ hByte with hSpread | rfl
    · exact
        isPlain_of_mem_spread s ((List.dropWhile_sublist _).mem hSpread)
    · exact isPlain_space

/- What is spelled out stays as it is. -/
theorem words_of_spelled
    {s : Bytes}
    (hSpelled : Spelled s) :
    words s = s := by
  have hFront : s.dropWhile (· == Ascii.space) = s := by
    cases s with
    | nil => rfl
    | cons b rest =>
        apply List.dropWhile_cons_of_neg
        rw [beq_iff_eq]
        exact fun hIs => hSpelled.head (congrArg some hIs)
  rw [words, spread_of_isPlain s hSpelled.plain, hFront]
  exact (squeeze_of_single s hSpelled.single hSpelled.last).1

------------------------------------------------------------
-- What Is Kept
------------------------------------------------------------

variable {keep : UInt8 → Bool}

/- Squeezing only adds and removes spaces. -/
theorem filter_squeeze
    (hSpace : keep Ascii.space = false)
    (s : Bytes) :
    ∀ owed : Bool, (squeeze owed s).filter keep = s.filter keep := by
  have hSkip := Bool.eq_false_iff.mp hSpace
  induction s with
  | nil =>
      intro owed
      rfl
  | cons b rest ih =>
      intro owed
      unfold squeeze
      split
      · next hByte => rw [ih, hByte, List.filter_cons_of_neg hSkip]
      · split
        · rw [List.filter_cons_of_neg hSkip, List.filter_cons,
            List.filter_cons, ih]
        · rw [List.filter_cons, List.filter_cons, ih]

/- Spreading puts spaces for separators and changes the case. -/
theorem filter_spread
    (hDeleted : ∀ b, isSeparator b = true → keep b = false)
    (s : Bytes) :
    ∀ before : Option UInt8,
      (spread before s).filter keep = (Bytes.lower s).filter keep := by
  have hSkip := Bool.eq_false_iff.mp (hDeleted Ascii.space rfl)
  induction s with
  | nil =>
      intro before
      rfl
  | cons b rest ih =>
      intro before
      have hLower :
          Bytes.lower (b :: rest) = Ascii.toLower b :: Bytes.lower rest :=
        rfl
      rw [hLower]
      unfold spread
      split
      · next hSeparator =>
          have hGone :=
            hDeleted (Ascii.toLower b)
              (by rw [isSeparator_toLower, hSeparator])
          rw [List.filter_cons_of_neg hSkip,
            List.filter_cons_of_neg (Bool.eq_false_iff.mp hGone), ih]
      · split
        · rw [List.filter_cons_of_neg hSkip, List.filter_cons,
            List.filter_cons, ih]
        · rw [List.filter_cons, List.filter_cons, ih]

/- The words of a text are its bytes in lower case, but for separators. -/
theorem filter_words
    (hDeleted : ∀ b, isSeparator b = true → keep b = false)
    (s : Bytes) :
    (words s).filter keep = (Bytes.lower s).filter keep := by
  have hSpace : ∀ b, (b == Ascii.space) = true → keep b = false := by
    intro b hIs
    rw [beq_iff_eq.mp hIs]
    exact hDeleted Ascii.space rfl
  rw [words, filter_squeeze (hDeleted Ascii.space rfl),
    Bytes.filter_dropWhile hSpace, filter_spread hDeleted]

/- The words of an identifier are made of letters and digits. -/
theorem isLower_or_isDigit_of_mem_words
    {s : Bytes}
    {b : UInt8}
    (hIdentifier : isIdentifier s = true)
    (hByte : b ∈ words s) :
    Ascii.isLower b = true ∨ Ascii.isDigit b = true ∨
      b = Ascii.space := by
  cases hSeparator : isSeparator b with
  | true =>
      have hPlain := (spelled_words s).plain b hByte
      exact Or.inr (Or.inr (hPlain.separates hSeparator))
  | false =>
      have hKept : b ∈ (words s).filter (fun b => !isSeparator b) :=
        List.mem_filter.mpr ⟨hByte, by rw [hSeparator]; rfl⟩
      rw [filter_words (fun b hIs => by rw [hIs]; rfl)] at hKept
      rcases List.mem_map.mp (List.mem_filter.mp hKept).1 with
        ⟨a, hOriginal, rfl⟩
      rw [isSeparator_toLower] at hSeparator
      have hPart : isPart a = true := by
        rw [isIdentifier, Bool.and_eq_true] at hIdentifier
        exact List.all_eq_true.mp hIdentifier.1 a hOriginal
      rcases isLower_or_isDigit_toLower a hPart hSeparator with
        hLower | hDigit
      · exact Or.inl hLower
      · exact Or.inr (Or.inl hDigit)

end Identifier

------------------------------------------------------------
-- Comments That Are Found
------------------------------------------------------------

namespace CommentLookup

variable {lines : Array Bytes}
variable {tokens : Nat → List Token}

/- A comment is empty only if no text is taken out of it. -/
theorem eval_compute_eq_emptyAfterStrip_iff
    {settings : MergeSettings}
    {position : Position} :
    (compute lines settings position).eval tokens = .emptyAfterStrip ↔
      ∃ m,
        (CommentMatch.locate lines position).eval tokens = some m ∧
          (ExtractedText.ofSpan lines
              ((CommentSpan.ofMatch lines m settings.policy?).eval tokens)
              m.scope).eval tokens =
            none := by
  rw [compute, TokenQuery.eval_bind]
  cases hMatch : (CommentMatch.locate lines position).eval tokens with
  | none => simp
  | some m =>
      dsimp only
      rw [TokenQuery.eval_bind, TokenQuery.eval_bind,
        TokenQuery.eval_pure]
      cases hText :
          (ExtractedText.ofSpan lines
              ((CommentSpan.ofMatch lines m settings.policy?).eval tokens)
              m.scope).eval tokens with
      | none => exact iff_of_true rfl ⟨m, rfl, hText⟩
      | some extracted =>
          rcases exists_found_of_ofSpan hText with ⟨block, hFound, _⟩
          rw [hFound]
          refine iff_of_false (fun hEmpty => by cases hEmpty) ?_
          rintro ⟨other, hOther, hNone⟩
          cases hOther
          rw [hText] at hNone
          cases hNone

end CommentLookup

/-
  For every text:

  Its words are in lower case, with one space between two of them
  and none at the ends, and no other separator.  They are their own
  words.  With the separators deleted they are the text in lower
  case.

  The words of an identifier are not empty, and made of lower-case
  letters, digits and spaces.

  So no text that is taken out of a comment is empty once it is
  spelled.  A lookup says that a comment is empty just where none
  is taken out, for every grammar, document and position, however
  much of the document is tokenized before.
-/
theorem Identifier.words_spell :
    (∀ text : Bytes,
        Spelled (words text) ∧
          words (words text) = words text ∧
          (words text).filter (fun b => !isSeparator b) =
            (Bytes.lower text).filter (fun b => !isSeparator b)) ∧
      (∀ {text : Bytes},
        isIdentifier text = true →
          words text ≠ [] ∧
            ∀ b ∈ words text,
              Ascii.isLower b = true ∨ Ascii.isDigit b = true ∨
                b = Ascii.space) ∧
      (∀ {lines : Array Bytes} {tokens : Nat → List Token}
        {span : CommentSpan} {scope : Scope} {extracted : ExtractedText},
        (ExtractedText.ofSpan lines span scope).eval tokens =
            some extracted →
          CommentLookup.ofText lines span scope (some extracted) ≠
            .emptyAfterStrip) ∧
      ∀ (grammar : Grammar) (document : Document) (maxLength : Nat)
        (settings : MergeSettings) (position : Position) (n : Nat),
        let fresh := TokenizedDocument.create grammar document maxLength
        let lines := fresh.lines
        let tokens := fresh.tokensAt
        (TokenizedDocument.answer
              (CommentLookup.compute lines settings position)
              (fresh.extend n)).1 =
            .emptyAfterStrip ↔
          ∃ m,
            (CommentMatch.locate lines position).eval tokens = some m ∧
              (ExtractedText.ofSpan lines
                  ((CommentSpan.ofMatch lines m
                    settings.policy?).eval tokens)
                  m.scope).eval tokens =
                none := by
  refine ⟨?_, ?_, ?_, ?_⟩
  · intro text
    exact
      ⟨spelled_words text, words_of_spelled (spelled_words text),
        filter_words (fun b hIs => by rw [hIs]; rfl) text⟩
  · intro text hIdentifier
    exact
      ⟨words_ne_nil hIdentifier,
        fun b hByte => isLower_or_isDigit_of_mem_words hIdentifier hByte⟩
  · intro lines tokens span scope extracted hExtracted hEmpty
    rcases CommentLookup.exists_found_of_ofSpan hExtracted with
      ⟨block, hFound, _⟩
    rw [hFound] at hEmpty
    cases hEmpty
  · intro grammar document maxLength settings position n fresh lines
      tokens
    have hFresh :=
      TokenizedDocument.fresh_create grammar document maxLength
    rw [TokenizedDocument.fst_answer_extend hFresh]
    exact CommentLookup.eval_compute_eq_emptyAfterStrip_iff

/-
  An identifier with words that begin in four ways, and a comment
  that it is the text of.
-/
theorem Identifier.words_spell_camel :
    let text := utf8 "parseHTTPBody-2Go"
    let lines := #[utf8 "// parseHTTPBody-2Go"]
    let span : CommentSpan := ⟨0, 0, 0, 20⟩
    let scope := utf8 "comment.line"
    isIdentifier text = true ∧
      words text = utf8 "parse http body 2 go" ∧
        (∀ b ∈ words text,
          Ascii.isLower b = true ∨ Ascii.isDigit b = true ∨
            b = Ascii.space) ∧
          CommentLookup.ofText lines span scope (some ⟨text, true⟩) ≠
            .emptyAfterStrip := by
  intro text lines span scope
  have hIdentifier : isIdentifier text = true := by decide
  have hExtracted :
      (ExtractedText.ofSpan lines span scope).eval (fun _ => []) =
        some ⟨text, true⟩ := by
    decide +kernel
  rcases words_spell with ⟨_, hMade, hFound, _⟩
  exact
    ⟨hIdentifier, by decide, (hMade hIdentifier).2, hFound hExtracted⟩

end Marginalia

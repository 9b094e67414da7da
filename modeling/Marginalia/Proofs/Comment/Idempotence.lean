import Marginalia.Proofs.Comment.Runs
import Marginalia.Proofs.Comment.Walks

/-
  This file proves that looking a comment up at its start finds
  it again, given tokens with a few properties: no token belongs
  to two comments, comments start with a character, and a block
  comment that touches another one has a begin mark.

  What is asked of block comments is kept apart, as line comments
  do without it.

  Key definitions include:
    * `Tokens.Tidy`, `Tokens.Marked`
  The main statements are:
    * `CommentMatch.eval_locate_start`
    * `CommentLookup.eval_compute_start`
-/

namespace Marginalia

------------------------------------------------------------
-- Tidy Tokens
------------------------------------------------------------

namespace Tokens

/-
  A token belongs to one comment at most, and the first token of
  a line comment starts with a character.
-/
structure Tidy
    (lines : Array Bytes)
    (tokens : Nat → List Token) : Prop where
  commentScope?_eq :
    ∀ {line : Nat} {t : Token} {scope : Scope},
      line < lines.size →
        t ∈ tokens line →
          t.carries scope = true →
            scope.isUnder Scope.comment = true →
              t.commentScope? = some scope
  sharp :
    ∀ {line index : Nat} {first : Token} {scope : Scope},
      line < lines.size →
        (tokens line)[index]? = some first →
          first.commentScope? = some scope →
            scope.isLineComment = true →
              (∀ {k : Nat} {t : Token},
                  k + 1 = index →
                    (tokens line)[k]? = some t →
                      t.carries scope = false) →
                Utf16.Sharp (lines.getD line []) first.start

/-
  Where block comments touch there is a begin mark, and the first
  token of a block comment, or a begin mark of it, starts with a
  character.
-/
structure Marked
    (lines : Array Bytes)
    (tokens : Nat → List Token) : Prop where
  parted : Parted tokens lines.size
  sharp :
    ∀ {line index : Nat} {first : Token} {scope : Scope},
      line < lines.size →
        (tokens line)[index]? = some first →
          first.commentScope? = some scope →
            scope.isLineComment = false →
              (first.isOpenMark = true ∨
                ∀ {k : Nat} {t : Token},
                  k + 1 = index →
                    (tokens line)[k]? = some t →
                      t.carries scope = false) →
                Utf16.Sharp (lines.getD line []) first.start

end Tokens

variable {lines : Array Bytes}
variable {tokens : Nat → List Token}

------------------------------------------------------------
-- Finding a Token at Its Start
------------------------------------------------------------

namespace CommentMatch

/- A token is found at the column where it starts. -/
theorem indexAt?_start
    {text : Bytes}
    {ts : List Token}
    {index : Nat}
    {token : Token}
    (hPartition : Tokens.Partition text.length ts)
    (hToken : ts[index]? = some token) :
    indexAt? text ts token.start = some index := by
  rcases List.getElem?_eq_some_iff.mp hToken with ⟨hIndex, rfl⟩
  have hFound :
      ts.findIdx?
          (fun t =>
            decide (t.start ≤ ts[index].start) &&
              decide (ts[index].start < t.stop)) =
        some index := by
    rw [List.findIdx?_eq_some_iff_getElem]
    refine ⟨hIndex, ?_, ?_⟩
    · have hWide :=
        hPartition.start_lt_stop _ (List.getElem_mem hIndex)
      simp [hWide]
    · intro j hBefore hHolds
      have hOrder :=
        List.pairwise_iff_getElem.mp
          (Tokens.pairwise_of_partition hPartition) j index
          (Nat.lt_trans hBefore hIndex) hIndex hBefore
      simp only [Bool.and_eq_true, decide_eq_true_eq] at hHolds
      omega
  unfold indexAt?
  rw [hFound]

/- At the start of a token of a comment the token is found. -/
theorem eval_locate_start
    {line index : Nat}
    {token : Token}
    {scope : Scope}
    (hTokens : Tokens.Partitioned lines tokens)
    (hLine : line < lines.size)
    (hToken : (tokens line)[index]? = some token)
    (hScope : token.commentScope? = some scope)
    (hSharp : Utf16.Sharp (lines.getD line []) token.start) :
    (locate lines
          ⟨line, Utf16.ofByteColumn (lines.getD line []) token.start⟩).eval
        tokens =
      some ⟨line, index, scope, .exact⟩ := by
  have hInside :
      ¬((line : Int) < 0 ∨ (lines.size : Int) ≤ line) := by
    omega
  have hIndex := indexAt?_start (hTokens line hLine) hToken
  unfold locate
  rw [if_neg hInside]
  dsimp only
  unfold Utf16.Sharp at hSharp
  rw [Int.toNat_natCast, hSharp, TokenQuery.eval_bind,
    TokenQuery.eval_tokensOf, at?, hIndex]
  dsimp only
  rw [ofToken?, hToken]
  dsimp only
  rw [hScope]
  rfl

end CommentMatch

------------------------------------------------------------
-- Looking Up Again
------------------------------------------------------------

namespace CommentSpan

/-
  A comment starts at a token that belongs to it, whose column
  is that of a character, and has the same extent if it is found
  by that token.
-/
theorem exists_first_of_ofMatch
    {m : CommentMatch}
    {token : Token}
    {policy? : Option Indentation}
    (hTokens : Tokens.Partitioned lines tokens)
    (hTidy : Tokens.Tidy lines tokens)
    (hLine : m.line < lines.size)
    (hToken : (tokens m.line)[m.tokenIndex]? = some token)
    (hScope : token.commentScope? = some m.scope)
    (hMarked :
      m.scope.isLineComment = false → Tokens.Marked lines tokens) :
    ∃ span index first,
      (ofMatch lines m policy?).eval tokens = span ∧
        (tokens span.startLine)[index]? = some first ∧
        first.start = span.startColumn ∧
        span.startLine < lines.size ∧
        first.commentScope? = some m.scope ∧
        Utf16.Sharp (lines.getD span.startLine []) first.start ∧
        (ofMatch lines ⟨span.startLine, index, m.scope, .exact⟩
            policy?).eval tokens =
          span := by
  rcases Token.properties_of_commentScope? hScope with ⟨hMember, hUnder⟩
  have hCarries : token.carries m.scope = true := by
    simpa [Token.carries] using hMember
  have hInside :
      ((ofMatch lines m policy?).eval tokens).startLine < lines.size := by
    have hFound :
        CommentMatch.Located lines tokens ⟨0, 0⟩
          { m with nearness := .below } token := by
      refine ⟨hLine, hToken, hScope, ?_, ?_, ?_⟩
      all_goals
        intro hExact
        cases hExact
    have hAround := around_ofMatch hTokens hFound policy?
    exact Nat.lt_of_le_of_lt hAround.startLine_le hLine
  unfold ofMatch at hInside ⊢
  cases hKind : m.scope.isLineComment with
  | true =>
      rw [hKind, if_pos rfl] at hInside
      rcases exists_first_of_ofLine hLine hToken hCarries policy? with
        ⟨span, index, first, hSpan, hFirst, hColumn, hFirstCarries,
          hAlone, hAgain⟩
      rw [hSpan] at hInside
      have hFirstScope :=
        hTidy.commentScope?_eq hInside (List.mem_of_getElem? hFirst)
          hFirstCarries hUnder
      have hSharp :=
        hTidy.sharp hInside hFirst hFirstScope hKind hAlone
      refine
        ⟨span, index, first, ?_, hFirst, hColumn, hInside, hFirstScope,
          hSharp, ?_⟩
      · rw [if_pos rfl]
        exact hSpan
      · rw [if_pos hKind]
        exact hAgain .exact
  | false =>
      rw [hKind, if_neg Bool.false_ne_true] at hInside
      rcases
          exists_first_of_ofBlock hTokens (hMarked hKind).parted hLine
            hToken hKind hCarries with
        ⟨span, index, first, hSpan, hFirst, hColumn, hFirstCarries,
          hMark, hAgain⟩
      rw [hSpan] at hInside
      have hFirstScope :=
        hTidy.commentScope?_eq hInside (List.mem_of_getElem? hFirst)
          hFirstCarries hUnder
      have hSharp :=
        (hMarked hKind).sharp hInside hFirst hFirstScope hKind hMark
      refine
        ⟨span, index, first, ?_, hFirst, hColumn, hInside, hFirstScope,
          hSharp, ?_⟩
      · rw [if_neg Bool.false_ne_true]
        exact hSpan
      · rw [if_neg (by simp [hKind])]
        exact hAgain .exact

end CommentSpan

namespace CommentLookup

/- What a lookup comes to depends on the span and the scope alone. -/
theorem eval_compute_of_locate
    {position : Position}
    {m : CommentMatch}
    (settings : MergeSettings)
    (hFound : (CommentMatch.locate lines position).eval tokens = some m) :
    (compute lines settings position).eval tokens =
      ofText lines
        ((CommentSpan.ofMatch lines m settings.policy?).eval tokens)
        m.scope
        ((ExtractedText.ofSpan lines
          ((CommentSpan.ofMatch lines m settings.policy?).eval tokens)
          m.scope).eval tokens) := by
  unfold compute
  rw [TokenQuery.eval_bind, hFound]
  dsimp only
  rw [TokenQuery.eval_bind, TokenQuery.eval_bind]
  rfl

/- The range and the scope of a comment that was found. -/
theorem eq_of_ofText_eq_found
    {span : CommentSpan}
    {scope : Scope}
    {extracted : Option ExtractedText}
    {block : CommentBlock}
    (hFound : ofText lines span scope extracted = .found block) :
    block.range = span.toRange lines ∧
      block.isLineComment = scope.isLineComment := by
  cases extracted with
  | none => cases hFound
  | some text =>
      unfold ofText at hFound
      dsimp only at hFound
      split at hFound
      · cases hFound
      · cases hFound
        exact ⟨rfl, rfl⟩

/-
  A comment that is looked up at its start is found again, with
  all that there is to it.
-/
theorem eval_compute_start
    {settings : MergeSettings}
    {position : Position}
    {block : CommentBlock}
    (hTokens : Tokens.Partitioned lines tokens)
    (hTidy : Tokens.Tidy lines tokens)
    (hFound :
      (compute lines settings position).eval tokens = .found block)
    (hMarked :
      block.isLineComment = false → Tokens.Marked lines tokens) :
    (compute lines settings block.range.start).eval tokens =
      .found block := by
  cases hMatch : (CommentMatch.locate lines position).eval tokens with
  | none =>
      unfold compute at hFound
      rw [TokenQuery.eval_bind, hMatch] at hFound
      cases hFound
  | some m =>
      rcases CommentMatch.located_of_locate hTokens hMatch with
        ⟨token, hLocated⟩
      have hLookup := eval_compute_of_locate settings hMatch
      rw [hLookup] at hFound
      rcases eq_of_ofText_eq_found hFound with ⟨hRange, hKind⟩
      rw [hKind] at hMarked
      rcases
          @CommentSpan.exists_first_of_ofMatch lines tokens m token
            settings.policy? hTokens hTidy hLocated.line_lt
            hLocated.getElem_eq hLocated.scope_eq hMarked with
        ⟨span, index, first, hSpan, hFirst, hColumn, hInside, hScope,
          hSharp, hAgain⟩
      have hAt :=
        CommentMatch.eval_locate_start hTokens hInside hFirst hScope
          hSharp
      have hStart :
          block.range.start =
            ⟨span.startLine,
              Utf16.ofByteColumn (lines.getD span.startLine [])
                first.start⟩ := by
        rw [hRange, hSpan, hColumn]
        rfl
      rw [hStart, eval_compute_of_locate settings hAt]
      dsimp only
      rw [hAgain, ← hSpan]
      exact hFound

end CommentLookup

end Marginalia

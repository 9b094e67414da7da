import Marginalia.Proofs.Comment.Merging
import Marginalia.Proofs.Comment.Visible
import Marginalia.Proofs.Text.Edges

/-
  This file proves which comment a position is about, in both
  directions: what is found is as described here, and what is
  described here is found.

  The token at the column of the position comes first.  Without a
  comment there, it is the first token that is not white in the
  first line below that is not blank; if that one is code, nothing
  is found.

  A line is looked at twice, as a whole and token by token.  That
  the two ways agree, so that no line is skipped after its tokens
  were looked at, rests on the tokens covering all of the line.

  Key definitions include:
    * `Scope.IsComment`, `Token.Comments`
    * `CommentMatch.IsAt`
    * `CommentMatch.IsHere`
    * `CommentMatch.IsNext`, `CommentMatch.IsBelow`
  The main statements are:
    * `Token.commentScope?_eq_some_iff`
    * `CommentMatch.indexAt?_eq_some_iff`
    * `CommentMatch.eval_below_eq_some_iff`
    * `CommentMatch.eval_below_eq_none_iff`
    * `TokenizedDocument.locate_iff`
-/

namespace Marginalia

------------------------------------------------------------
-- Comment Scopes
------------------------------------------------------------

/- The scope is `comment`, or refines it. -/
def Scope.IsComment (scope : Scope) : Prop :=
  scope = utf8 "comment" ∨ ∃ rest, scope = utf8 "comment." ++ rest

/- These are the scopes under the one of all comments. -/
theorem Scope.isUnder_comment_iff
    {scope : Scope} :
    scope.isUnder Scope.comment = true ↔ scope.IsComment := by
  constructor
  · intro hUnder
    rcases eq_or_exists_of_isUnder hUnder with hSame | ⟨rest, rfl⟩
    · exact Or.inl hSame
    · exact Or.inr ⟨rest, List.append_assoc Scope.comment [_] rest⟩
  · rintro (rfl | ⟨rest, rfl⟩)
    · decide
    · rfl

/- The scope is the last one of the token that is a comment's. -/
structure Token.Comments (token : Token) (scope : Scope) : Prop where
  isComment : scope.IsComment
  last :
    ∃ before after,
      token.scopes = before ++ scope :: after ∧
        ∀ other ∈ after, ¬Scope.IsComment other

namespace Token

variable {token : Token}
variable {scope : Scope}

/- The innermost comment scope is the last one. -/
theorem commentScope?_eq_some_iff :
    token.commentScope? = some scope ↔ token.Comments scope := by
  unfold commentScope?
  rw [List.find?_eq_some_iff_append, Scope.isUnder_comment_iff]
  constructor
  · rintro ⟨hComment, outer, inner, hScopes, hOuter⟩
    refine ⟨hComment, inner.reverse, outer.reverse, ?_, ?_⟩
    · rw [← List.reverse_reverse token.scopes, hScopes]
      simp
    · intro other hOther hIs
      have hNot := hOuter other (List.mem_reverse.mp hOther)
      rw [Scope.isUnder_comment_iff.mpr hIs] at hNot
      cases hNot
  · rintro ⟨hComment, before, after, hScopes, hAfter⟩
    refine ⟨hComment, after.reverse, before.reverse, ?_, ?_⟩
    · simp [hScopes]
    · intro other hOther
      rw [Bool.not_eq_true', Bool.eq_false_iff, ne_eq,
        Scope.isUnder_comment_iff]
      exact hAfter other (List.mem_reverse.mp hOther)

/- Without one, the token has no comment scope at all. -/
theorem commentScope?_eq_none_iff :
    token.commentScope? = none ↔ ∀ scope, ¬token.Comments scope := by
  rw [Option.eq_none_iff_forall_ne_some]
  exact
    forall_congr' (fun scope => not_congr commentScope?_eq_some_iff)

end Token

------------------------------------------------------------
-- The Token at a Column
------------------------------------------------------------

namespace Utf16

/- No more bytes come before a column than the pieces have. -/
theorem bytesBefore_le
    (ps : List Bytes) :
    ∀ target : Nat, bytesBefore ps target ≤ ps.flatten.length := by
  induction ps with
  | nil => exact fun target => Nat.le_refl _
  | cons piece ps ih =>
      intro target
      rw [bytesBefore, List.flatten_cons, List.length_append]
      split
      · exact Nat.zero_le _
      · exact Nat.add_le_add_left (ih _) _

/- A column is never past the end of its line. -/
theorem toByteColumn_le
    (line : Bytes)
    (character : Int) :
    toByteColumn line character ≤ line.length := by
  have hLe := bytesBefore_le (pieces line) character.toNat
  rwa [flatten_pieces] at hLe

/- A column before the first one counts as the first one. -/
theorem toByteColumn_of_le_zero
    {character : Int}
    (line : Bytes)
    (hBefore : character ≤ 0) :
    toByteColumn line character = 0 := by
  unfold toByteColumn
  rw [Int.toNat_of_nonpos hBefore]
  cases pieces line <;> rfl

end Utf16

namespace CommentMatch

/-
  The token at an index covers a column.  The end of the line
  belongs to its last token.
-/
structure IsAt
    (text : Bytes)
    (tokens : List Token)
    (column index : Nat)
    (token : Token) : Prop where
  getElem_eq : tokens[index]? = some token
  start_le : token.start ≤ column
  covers :
    column < token.stop ∨
      (column = text.length ∧ index + 1 = tokens.length)

variable {text : Bytes}
variable {ts : List Token}
variable {column index : Nat}
variable {token : Token}

/- The last token covers the end of the line. -/
theorem isAt_last
    (hPartition : Tokens.Partition text.length ts)
    (hSome : ts ≠ []) :
    IsAt text ts text.length (ts.length - 1) (ts.getLast hSome) := by
  have hLength := List.length_pos_iff.mpr hSome
  have hLast := List.getLast?_eq_some_getLast hSome
  have hStop := hPartition.stop_of_last _ hLast
  have hWide := hPartition.start_lt_stop _ (List.getLast_mem hSome)
  rw [List.getLast?_eq_getElem?] at hLast
  exact ⟨hLast, by omega, Or.inr ⟨rfl, by omega⟩⟩

/- Every column of a line that is not empty is covered by a token. -/
theorem exists_isAt
    (hPartition : Tokens.Partition text.length ts)
    (hText : text ≠ [])
    (hColumn : column ≤ text.length) :
    ∃ index token, IsAt text ts column index token := by
  rcases Nat.lt_or_eq_of_le hColumn with hInside | rfl
  · rcases Tokens.exists_mem_of_lt hPartition hInside with
      ⟨token, hMember, hStart, hStop⟩
    rcases List.mem_iff_getElem?.mp hMember with ⟨index, hToken⟩
    exact ⟨index, token, hToken, hStart, Or.inl hStop⟩
  · have hSome : ts ≠ [] := by
      rw [ne_eq, hPartition.eq_nil_iff, List.length_eq_zero_iff]
      exact hText
    exact ⟨_, _, isAt_last hPartition hSome⟩

/- A token is the first one that covers a column inside it. -/
theorem findIdx?_of_covers
    (hPartition : Tokens.Partition text.length ts)
    (hToken : ts[index]? = some token)
    (hStart : token.start ≤ column)
    (hStop : column < token.stop) :
    ts.findIdx?
        (fun t => decide (t.start ≤ column) && decide (column < t.stop)) =
      some index := by
  rcases List.getElem?_eq_some_iff.mp hToken with ⟨hIndex, rfl⟩
  refine List.findIdx?_eq_some_iff_getElem.mpr ⟨hIndex, ?_, ?_⟩
  · simp [hStart, hStop]
  · intro k hBefore hHolds
    have hOrder :=
      List.pairwise_iff_getElem.mp
        (Tokens.pairwise_of_partition hPartition) k index
        (Nat.lt_trans hBefore hIndex) hIndex hBefore
    simp only [Bool.and_eq_true, decide_eq_true_eq] at hHolds
    omega

/- No token covers a column at the end of the line. -/
theorem findIdx?_at_end
    (hPartition : Tokens.Partition text.length ts) :
    ts.findIdx?
        (fun t =>
          decide (t.start ≤ text.length) &&
            decide (text.length < t.stop)) =
      none := by
  rw [List.findIdx?_eq_none_iff]
  intro t hMember
  have hLe := Tokens.stop_le_of_mem hPartition hMember
  rw [Bool.and_eq_false_imp]
  intro _
  exact decide_eq_false (by omega)

/- The token at a column is the one that covers it. -/
theorem indexAt?_eq_some_iff
    (hPartition : Tokens.Partition text.length ts) :
    indexAt? text ts column = some index ↔
      ∃ token, IsAt text ts column index token := by
  constructor
  · intro hIndex
    unfold indexAt? at hIndex
    split at hIndex
    · next found hFound =>
        cases hIndex
        rcases List.findIdx?_eq_some_iff_getElem.mp hFound with
          ⟨hLt, hHolds, _⟩
        simp only [Bool.and_eq_true, decide_eq_true_eq] at hHolds
        exact
          ⟨_, List.getElem?_eq_getElem hLt, hHolds.1, Or.inl hHolds.2⟩
    · split at hIndex
      · cases hIndex
      · next hEnd =>
          cases hIndex
          simp only [Bool.or_eq_true, bne_iff_ne, not_or, not_not,
            List.isEmpty_iff] at hEnd
          rcases hEnd with ⟨⟨hSome, _⟩, rfl⟩
          exact ⟨_, isAt_last hPartition hSome⟩
  · rintro ⟨token, hToken, hStart, hInside | ⟨rfl, hLast⟩⟩
    · unfold indexAt?
      rw [findIdx?_of_covers hPartition hToken hStart hInside]
    · have hIndex := (List.getElem?_eq_some_iff.mp hToken).1
      have hText : text ≠ [] := by
        intro hEmpty
        rw [hPartition.eq_nil_iff.mpr (by rw [hEmpty]; rfl)] at hIndex
        cases hIndex
      have hSome : ts ≠ [] := by
        rintro rfl
        cases hIndex
      unfold indexAt?
      rw [findIdx?_at_end hPartition]
      simp [hSome, hText, ← hLast]

/- One token covers a column. -/
theorem IsAt.unique
    {other : Token}
    {otherIndex : Nat}
    (hPartition : Tokens.Partition text.length ts)
    (hToken : IsAt text ts column index token)
    (hOther : IsAt text ts column otherIndex other) :
    otherIndex = index :=
  Option.some.inj
    (((indexAt?_eq_some_iff hPartition).mpr ⟨_, hOther⟩).symm.trans
      ((indexAt?_eq_some_iff hPartition).mpr ⟨_, hToken⟩))

------------------------------------------------------------
-- What Is Found
------------------------------------------------------------

variable {lines : Array Bytes}
variable {tokens : Nat → List Token}
variable {position : Position}
variable {line start : Nat}
variable {m : CommentMatch}

/- The position's line is one of the document. -/
structure Inside (lines : Array Bytes) (position : Position) : Prop where
  nonneg : 0 ≤ position.line
  lt : position.line < lines.size

/-
  The match is the token at the column of the position, with its
  last comment scope.
-/
structure IsHere
    (lines : Array Bytes)
    (tokens : Nat → List Token)
    (position : Position)
    (m : CommentMatch) : Prop where
  nearness_eq : m.nearness = .exact
  line_eq : (m.line : Int) = position.line
  text_ne : lines.getD m.line [] ≠ []
  token :
    ∃ token,
      IsAt (lines.getD m.line []) (tokens m.line)
          (Utf16.toByteColumn (lines.getD m.line []) position.character)
          m.tokenIndex token ∧
        token.Comments m.scope

/- The line is the first one from `start` on that is not blank. -/
structure IsNext (lines : Array Bytes) (start line : Nat) : Prop where
  start_le : start ≤ line
  line_lt : line < lines.size
  shown : ∃ b ∈ lines.getD line [], Ascii.isSpace b = false
  before :
    ∀ {k : Nat},
      start ≤ k → k < line → ∀ b ∈ lines.getD k [], Ascii.isSpace b = true

/-
  The match is the first token that is not white in the first line
  from `start` on that is not blank, with its last comment scope.
-/
structure IsBelow
    (lines : Array Bytes)
    (tokens : Nat → List Token)
    (start : Nat)
    (m : CommentMatch) : Prop where
  nearness_eq : m.nearness = .below
  next : IsNext lines start m.line
  content :
    LineRun.IsContent (lines.getD m.line []) (tokens m.line) m.tokenIndex
  token :
    ∃ token,
      (tokens m.line)[m.tokenIndex]? = some token ∧
        token.Comments m.scope

/- A match of a token is its comment scope. -/
theorem ofToken?_eq_some_iff
    {nearness : Nearness} :
    ofToken? line ts index nearness = some m ↔
      m.line = line ∧ m.tokenIndex = index ∧ m.nearness = nearness ∧
        ∃ token, ts[index]? = some token ∧ token.Comments m.scope := by
  constructor
  · intro hMatch
    rcases properties_of_ofToken? hMatch with
      ⟨token, hToken, hScope, hLine, hIndex, hNearness⟩
    exact
      ⟨hLine, hIndex, hNearness, token, hToken,
        Token.commentScope?_eq_some_iff.mp hScope⟩
  · rcases m with ⟨_, _, scope, _⟩
    rintro ⟨rfl, rfl, rfl, token, hToken, hScope⟩
    rw [ofToken?, hToken]
    dsimp only
    rw [Token.commentScope?_eq_some_iff.mpr hScope]
    rfl

------------------------------------------------------------
-- At the Position
------------------------------------------------------------

/- The match at the position is the one described. -/
theorem at?_eq_some_iff
    (hTokens : Tokens.Partitioned lines tokens)
    (hInside : Inside lines position) :
    at? (lines.getD position.line.toNat []) position.line.toNat
          (tokens position.line.toNat)
          (Utf16.toByteColumn (lines.getD position.line.toNat [])
            position.character) =
        some m ↔
      IsHere lines tokens position m := by
  have hLine := Int.toNat_of_nonneg hInside.nonneg
  have hLt := hInside.lt
  have hPartition := hTokens position.line.toNat (by omega)
  constructor
  · intro hAt
    unfold at? at hAt
    split at hAt
    · cases hAt
    · next index hIndex =>
        rcases ofToken?_eq_some_iff.mp hAt with
          ⟨hSame, rfl, hExact, token, hToken, hScope⟩
        rcases (indexAt?_eq_some_iff hPartition).mp hIndex with
          ⟨other, hCovers⟩
        cases hCovers.getElem_eq.symm.trans hToken
        rw [← hSame] at hCovers hLine
        refine ⟨hExact, hLine, ?_, _, hCovers, hScope⟩
        intro hEmpty
        rw [← hSame] at hPartition
        have hNone := hPartition.eq_nil_iff.mpr (by rw [hEmpty]; rfl)
        rw [hNone] at hCovers
        cases hCovers.getElem_eq
  · rintro ⟨hExact, hSame, hText, token, hCovers, hScope⟩
    have hNat : m.line = position.line.toNat := by omega
    rw [hNat] at hCovers
    unfold at?
    rw [(indexAt?_eq_some_iff hPartition).mpr ⟨token, hCovers⟩]
    exact
      ofToken?_eq_some_iff.mpr
        ⟨hNat, rfl, hExact, token, hCovers.getElem_eq, hScope⟩

------------------------------------------------------------
-- Below the Position
------------------------------------------------------------

/- A line that is not blank has a token that is not white. -/
theorem exists_content
    (hPartition : Tokens.Partition text.length ts)
    (hShown : ∃ b ∈ text, Ascii.isSpace b = false) :
    ∃ token,
      ts[firstContent text ts]? = some token ∧
        LineRun.IsContent text ts (firstContent text ts) := by
  rcases hShown with ⟨b, hByte, hNot⟩
  rcases List.mem_iff_getElem?.mp hByte with ⟨column, hItem⟩
  have hColumn := (List.getElem?_eq_some_iff.mp hItem).1
  rcases Tokens.exists_mem_of_lt hPartition hColumn with
    ⟨token, hMember, hStart, hStop⟩
  have hShows : token.isWhite text = false := by
    refine List.all_eq_false.mpr ⟨b, ?_, by simp [hNot]⟩
    exact Bytes.mem_slice_iff.mpr ⟨column, hStart, hStop, hItem⟩
  have hFirst : firstContent text ts < ts.length :=
    List.findIdx_lt_length_of_exists ⟨token, hMember, by simp [hShows]⟩
  have hToken := List.getElem?_eq_getElem hFirst
  exact ⟨_, hToken, LineRun.isContent_firstContent hToken⟩

/- A line is not blank if something in it is no white space. -/
theorem isBlankLine_eq_false_iff :
    text.isBlankLine = false ↔ ∃ b ∈ text, Ascii.isSpace b = false := by
  unfold Bytes.isBlankLine
  rw [List.all_eq_false]
  simp

/- A blank line is passed over. -/
theorem isNext_succ_iff
    (hBlank : (lines.getD start []).isBlankLine = true) :
    IsNext lines (start + 1) line ↔ IsNext lines start line := by
  constructor
  · rintro ⟨hStart, hLine, hShown, hBefore⟩
    refine ⟨Nat.le_of_succ_le hStart, hLine, hShown, ?_⟩
    intro k hFrom hTo
    rcases Nat.lt_or_eq_of_le hFrom with hLater | rfl
    · exact hBefore hLater hTo
    · exact List.all_eq_true.mp hBlank
  · rintro ⟨hStart, hLine, hShown, hBefore⟩
    refine ⟨?_, hLine, hShown, fun hFrom => hBefore (by omega)⟩
    rcases Nat.lt_or_eq_of_le hStart with hLater | rfl
    · exact hLater
    · rcases hShown with ⟨b, hByte, hNot⟩
      rw [List.all_eq_true.mp hBlank b hByte] at hNot
      cases hNot

/- There is one first line that is not blank. -/
theorem IsNext.unique
    {other : Nat}
    (hNext : IsNext lines start line)
    (hOther : IsNext lines start other) :
    other = line := by
  rcases Nat.lt_trichotomy other line with hLt | hSame | hGt
  · rcases hOther.shown with ⟨b, hByte, hNot⟩
    rw [hNext.before hOther.start_le hLt b hByte] at hNot
    cases hNot
  · exact hSame
  · rcases hNext.shown with ⟨b, hByte, hNot⟩
    rw [hOther.before hNext.start_le hGt b hByte] at hNot
    cases hNot

/- There is none only if all lines are blank. -/
theorem forall_not_isNext_iff :
    (∀ line, ¬IsNext lines start line) ↔
      ∀ line,
        start ≤ line →
          line < lines.size →
            ∀ b ∈ lines.getD line [], Ascii.isSpace b = true := by
  constructor
  · intro hNone line
    -- The lines before this one are blank by induction.
    induction line using Nat.strongRecOn with
    | ind line ih =>
        intro hStart hLine
        by_contra hSome
        refine hNone line ⟨hStart, hLine, ?_, ?_⟩
        · simpa using hSome
        · intro k hFrom hTo
          exact ih k hTo hFrom (Nat.lt_trans hTo hLine)
  · intro hBlank line hNext
    rcases hNext.shown with ⟨b, hByte, hNot⟩
    rw [hBlank line hNext.start_le hNext.line_lt b hByte] at hNot
    cases hNot

/- Without a first line that is not blank, nothing is found below. -/
theorem eval_below_of_not_isNext
    (remaining : Nat) :
    ∀ {start : Nat},
      start + remaining = lines.size →
        (∀ line, ¬IsNext lines start line) →
          (below lines remaining start).eval tokens = none := by
  induction remaining with
  | zero =>
      intro start _ _
      rfl
  | succ remaining ih =>
      intro start hSize hNone
      have hBlank : (lines.getD start []).isBlankLine = true := by
        rw [← Bool.not_eq_false, isBlankLine_eq_false_iff]
        intro hShown
        exact
          hNone start
            ⟨Nat.le_refl start, by omega, hShown, fun hFrom hTo =>
              absurd hTo (Nat.not_lt_of_le hFrom)⟩
      unfold below
      dsimp only
      rw [if_pos hBlank]
      apply ih (by omega)
      intro line hNext
      exact hNone line ((isNext_succ_iff hBlank).mp hNext)

/- With one, its first token that is not white is looked at. -/
theorem eval_below_of_isNext
    (hTokens : Tokens.Partitioned lines tokens)
    (remaining : Nat) :
    ∀ {start : Nat},
      start + remaining = lines.size →
        IsNext lines start line →
          (below lines remaining start).eval tokens =
            ofToken? line (tokens line)
              (firstContent (lines.getD line []) (tokens line))
              .below := by
  induction remaining with
  | zero =>
      intro start hSize hNext
      have hLe := hNext.start_le
      have hLt := hNext.line_lt
      omega
  | succ remaining ih =>
      intro start hSize hNext
      unfold below
      dsimp only
      cases hBlank : (lines.getD start []).isBlankLine with
      | true =>
          rw [if_pos rfl]
          exact ih (by omega) ((isNext_succ_iff hBlank).mpr hNext)
      | false =>
          have hShown := isBlankLine_eq_false_iff.mp hBlank
          have hStart : IsNext lines start start :=
            ⟨Nat.le_refl start, by omega, hShown, fun hFrom hTo =>
              absurd hTo (Nat.not_lt_of_le hFrom)⟩
          cases hStart.unique hNext
          rcases exists_content (hTokens line (by omega)) hShown with
            ⟨token, hToken, _⟩
          have hFirst := (List.getElem?_eq_some_iff.mp hToken).1
          rw [if_neg Bool.false_ne_true, TokenQuery.eval_bind,
            TokenQuery.eval_tokensOf, if_neg (Nat.ne_of_lt hFirst)]
          rfl

/- The match below is the one described. -/
theorem eval_below_eq_some_iff
    {remaining : Nat}
    (hTokens : Tokens.Partitioned lines tokens)
    (hSize : start + remaining = lines.size) :
    (below lines remaining start).eval tokens = some m ↔
      IsBelow lines tokens start m := by
  by_cases hAny : ∃ line, IsNext lines start line
  · rcases hAny with ⟨line, hNext⟩
    rw [eval_below_of_isNext hTokens remaining hSize hNext,
      ofToken?_eq_some_iff]
    rcases
        exists_content (hTokens line hNext.line_lt) hNext.shown with
      ⟨_, _, hContent⟩
    constructor
    · rintro ⟨rfl, hIndex, hBelow, token, hToken, hScope⟩
      rw [← hIndex] at hContent hToken
      exact ⟨hBelow, hNext, hContent, token, hToken, hScope⟩
    · rintro ⟨hBelow, hOther, hShown, token, hToken, hScope⟩
      cases hNext.unique hOther
      have hIndex := LineRun.firstContent_eq_of_isContent hShown
      rw [hIndex]
      exact ⟨rfl, rfl, hBelow, token, hToken, hScope⟩
  · rw [eval_below_of_not_isNext remaining hSize
      (not_exists.mp hAny)]
    constructor
    · intro hNone
      cases hNone
    · intro hBelow
      exact absurd ⟨_, hBelow.next⟩ hAny

/-
  Nothing is found below if all lines are blank, or the first one
  that is not begins with code.
-/
theorem eval_below_eq_none_iff
    {remaining : Nat}
    (hTokens : Tokens.Partitioned lines tokens)
    (hSize : start + remaining = lines.size) :
    (below lines remaining start).eval tokens = none ↔
      (∀ line, ¬IsNext lines start line) ∨
        ∃ line index token,
          IsNext lines start line ∧
            LineRun.IsContent (lines.getD line []) (tokens line) index ∧
              (tokens line)[index]? = some token ∧
                ∀ scope, ¬token.Comments scope := by
  by_cases hAny : ∃ line, IsNext lines start line
  · rcases hAny with ⟨line, hNext⟩
    rcases
        exists_content (hTokens line hNext.line_lt) hNext.shown with
      ⟨token, hToken, hContent⟩
    rw [eval_below_of_isNext hTokens remaining hSize hNext, ofToken?,
      hToken]
    dsimp only
    rw [Option.map_eq_none_iff, Token.commentScope?_eq_none_iff]
    constructor
    · intro hCode
      exact Or.inr ⟨line, _, token, hNext, hContent, hToken, hCode⟩
    · rintro (hNone | ⟨other, index, code, hOther, hShown, hItem, hCode⟩)
      · exact absurd hNext (hNone line)
      · cases hNext.unique hOther
        rw [← LineRun.firstContent_eq_of_isContent hShown] at hItem
        cases hToken.symm.trans hItem
        exact hCode
  · rw [eval_below_of_not_isNext remaining hSize (not_exists.mp hAny)]
    exact iff_of_true rfl (Or.inl (not_exists.mp hAny))

------------------------------------------------------------
-- Around the Position
------------------------------------------------------------

/- Outside the document nothing is found. -/
theorem eval_locate_of_outside
    (hOutside : ¬Inside lines position) :
    (locate lines position).eval tokens = none := by
  have hOut :
      position.line < 0 ∨ (lines.size : Int) ≤ position.line := by
    by_contra hNot
    exact hOutside ⟨by omega, by omega⟩
  unfold locate
  rw [if_pos hOut]
  rfl

/- Inside, it is the match at the position, or else the one below. -/
theorem eval_locate_of_inside
    (hInside : Inside lines position) :
    (locate lines position).eval tokens =
      (at? (lines.getD position.line.toNat []) position.line.toNat
          (tokens position.line.toNat)
          (Utf16.toByteColumn (lines.getD position.line.toNat [])
            position.character)).or
        ((below lines (lines.size - (position.line.toNat + 1))
            (position.line.toNat + 1)).eval tokens) := by
  have hIn :
      ¬(position.line < 0 ∨ (lines.size : Int) ≤ position.line) := by
    have hNonneg := hInside.nonneg
    have hLt := hInside.lt
    omega
  unfold locate
  dsimp only
  rw [if_neg hIn, TokenQuery.eval_bind, TokenQuery.eval_tokensOf]
  split
  · next found hAt =>
      rw [hAt]
      rfl
  · next hAt =>
      rw [hAt]
      rfl

/- There is no match at the position if none is described. -/
theorem at?_eq_none_iff
    (hTokens : Tokens.Partitioned lines tokens)
    (hInside : Inside lines position) :
    at? (lines.getD position.line.toNat []) position.line.toNat
          (tokens position.line.toNat)
          (Utf16.toByteColumn (lines.getD position.line.toNat [])
            position.character) =
        none ↔
      ∀ other, ¬IsHere lines tokens position other := by
  rw [Option.eq_none_iff_forall_ne_some]
  exact
    forall_congr' (fun _ => not_congr (at?_eq_some_iff hTokens hInside))

/- What is found is what is described. -/
theorem eval_locate_eq_some_iff
    (hTokens : Tokens.Partitioned lines tokens) :
    (locate lines position).eval tokens = some m ↔
      Inside lines position ∧
        (IsHere lines tokens position m ∨
          ((∀ other, ¬IsHere lines tokens position other) ∧
            IsBelow lines tokens (position.line.toNat + 1) m)) := by
  by_cases hInside : Inside lines position
  · have hNonneg := hInside.nonneg
    have hLt := hInside.lt
    rw [eval_locate_of_inside hInside, Option.or_eq_some_iff,
      at?_eq_some_iff hTokens hInside, at?_eq_none_iff hTokens hInside,
      eval_below_eq_some_iff hTokens (by omega)]
    exact (and_iff_right hInside).symm
  · rw [eval_locate_of_outside hInside]
    exact iff_of_false (by simp) (fun hFound => hInside hFound.1)

/- Nothing is found just where nothing is described. -/
theorem eval_locate_eq_none_iff
    (hTokens : Tokens.Partitioned lines tokens) :
    (locate lines position).eval tokens = none ↔
      ¬Inside lines position ∨
        ((∀ other, ¬IsHere lines tokens position other) ∧
          ((∀ line, ¬IsNext lines (position.line.toNat + 1) line) ∨
            ∃ line index token,
              IsNext lines (position.line.toNat + 1) line ∧
                LineRun.IsContent (lines.getD line []) (tokens line)
                    index ∧
                  (tokens line)[index]? = some token ∧
                    ∀ scope, ¬token.Comments scope)) := by
  by_cases hInside : Inside lines position
  · have hNonneg := hInside.nonneg
    have hLt := hInside.lt
    rw [eval_locate_of_inside hInside, Option.or_eq_none_iff,
      at?_eq_none_iff hTokens hInside,
      eval_below_eq_none_iff hTokens (by omega),
      or_iff_right (not_not_intro hInside)]
  · rw [eval_locate_of_outside hInside]
    exact iff_of_true rfl (Or.inl hInside)

end CommentMatch

------------------------------------------------------------
-- Tokenized Documents
------------------------------------------------------------

/-
  For every grammar, document and position, however much of the
  document is tokenized before the question:

  The column of the position is clamped to its line, and one token
  covers it if the line is not empty.

  What is found is the token there, if it has a comment scope.
  Otherwise it is the first token that is not white in the first
  line below that is not blank, if that one has a comment scope.

  Nothing is found outside the document, and where all lines below
  are blank or the first one that is not begins with code.
-/
theorem TokenizedDocument.locate_iff
    (grammar : Grammar)
    (document : Document)
    (maxLength : Nat)
    (position : Position)
    (n : Nat) :
    let fresh := create grammar document maxLength
    let lines := fresh.lines
    let tokens := fresh.tokensAt
    let line := position.line.toNat
    let text := lines.getD line []
    let column := Utf16.toByteColumn text position.character
    let inside := CommentMatch.Inside lines position
    let here := CommentMatch.IsHere lines tokens position
    let next := CommentMatch.IsNext lines (line + 1)
    let found :=
      (answer (CommentMatch.locate lines position) (fresh.extend n)).1
    (column ≤ text.length ∧
        (position.character ≤ 0 → column = 0) ∧
          (Utf16.length text ≤ position.character →
            column = text.length)) ∧
      (inside →
        text ≠ [] →
          ∃! index,
            ∃ token,
              CommentMatch.IsAt text (tokens line) column index token) ∧
      (∀ m,
        found = some m ↔
          inside ∧
            (here m ∨
              ((∀ other, ¬here other) ∧
                CommentMatch.IsBelow lines tokens (line + 1) m))) ∧
      (found = none ↔
        ¬inside ∨
          ((∀ other, ¬here other) ∧
            ((∀ below,
                line < below →
                  below < lines.size →
                    ∀ b ∈ lines.getD below [],
                      Ascii.isSpace b = true) ∨
              ∃ below index token,
                next below ∧
                  LineRun.IsContent (lines.getD below [])
                      (tokens below) index ∧
                    (tokens below)[index]? = some token ∧
                      ∀ scope, ¬token.Comments scope))) := by
  intro fresh lines tokens line text column inside here next found
  have hFresh := fresh_create grammar document maxLength
  have hTokens : Tokens.Partitioned lines tokens :=
    partitioned_tokensAt hFresh
      (partitioned_create grammar document maxLength)
  have hFound :
      found = (CommentMatch.locate lines position).eval tokens :=
    fst_answer_extend hFresh _ n
  refine
    ⟨⟨Utf16.toByteColumn_le text position.character,
        Utf16.toByteColumn_of_le_zero text,
        Utf16.toByteColumn_of_length_le⟩, ?_, ?_, ?_⟩
  · intro hInside hText
    have hLine : line < lines.size := by
      have hNonneg := hInside.nonneg
      have hLt := hInside.lt
      omega
    rcases
        CommentMatch.exists_isAt (hTokens line hLine) hText
          (Utf16.toByteColumn_le text position.character) with
      ⟨index, token, hAt⟩
    refine ⟨index, ⟨token, hAt⟩, ?_⟩
    rintro other ⟨_, hOther⟩
    exact hAt.unique (hTokens line hLine) hOther
  · intro m
    rw [hFound]
    exact CommentMatch.eval_locate_eq_some_iff hTokens
  · rw [hFound, CommentMatch.eval_locate_eq_none_iff hTokens,
      CommentMatch.forall_not_isNext_iff]
    rfl

/-
  A comment below a line of code and a blank one.  It is found from
  above, through the end of the code, and at its own end.  Before
  its start nothing is found, because more code comes below.
-/
theorem TokenizedDocument.locate_iff_notes :
    let document : Document :=
      ⟨utf8 "file:///a", utf8 "notes", 1, utf8 "a\n \n\t# one\n\nb"⟩
    let fresh := create Grammar.notes document 0
    let locate := fun position =>
      (answer (CommentMatch.locate fresh.lines position)
        (fresh.extend 1)).1
    let scope := utf8 "comment.line.number-sign"
    CommentMatch.IsBelow fresh.lines fresh.tokensAt 1
        ⟨2, 1, scope, .below⟩ ∧
      CommentMatch.IsHere fresh.lines fresh.tokensAt ⟨2, 9⟩
        ⟨2, 1, scope, .exact⟩ ∧
      locate ⟨2, 0⟩ = none := by
  intro document fresh locate scope
  have hComputed :
      (extendWithin? 5 fresh.lines.size fresh).map
          (fun d =>
            [⟨0, 9⟩, ⟨2, 9⟩, ⟨2, 0⟩].map (fun position =>
              (CommentMatch.locate fresh.lines position).eval
                d.tokensIn)) =
        some
          [some ⟨2, 1, scope, .below⟩, some ⟨2, 1, scope, .exact⟩,
            none] := by
    decide +kernel
  rcases Option.map_eq_some_iff.mp hComputed with
    ⟨last, hExtend, hAll⟩
  have hLocate :
      ∀ position,
        locate position =
          (CommentMatch.locate fresh.lines position).eval
            last.tokensIn :=
    fun position =>
      answer_of_extendWithin? (fresh_create _ _ _) hExtend _ 1
  simp only [List.map_cons, List.map_nil, ← hLocate, List.cons.injEq,
    and_true] at hAll
  rcases hAll with ⟨hAbove, hEnd, hStart⟩
  refine ⟨?_, ?_, hStart⟩
  · rcases
        ((locate_iff Grammar.notes document 0 ⟨0, 9⟩ 1).2.2.1 _).mp
          hAbove with
      ⟨_, hHere | ⟨_, hBelow⟩⟩
    · cases hHere.nearness_eq
    · exact hBelow
  · rcases
        ((locate_iff Grammar.notes document 0 ⟨2, 9⟩ 1).2.2.1 _).mp
          hEnd with
      ⟨_, hHere | ⟨_, hBelow⟩⟩
    · exact hHere
    · cases hBelow.nearness_eq

end Marginalia

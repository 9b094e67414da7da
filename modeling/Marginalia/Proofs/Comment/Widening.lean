import Marginalia.Proofs.Comment.Runs
import Marginalia.Proofs.Comment.Safety
import Marginalia.Proofs.Comment.Visible

/-
  This file proves that merging more lines never loses a comment:
  the comment that is found without merging lies inside the one
  that is found if lines that are indented alike are merged, and
  this one inside the one that is found if all lines are.

  A span is widened at either end or stays there.  Where it is
  widened, nothing but white space stands between its old end and
  the end of that line, so the text of the line is not lost, no
  matter whether the marks are told by tokens or by their text.

  Key definitions include:
    * `CommentSpan.IsPartOf`, `Range.IsPartOf`
    * `CommentSpan.Widens`
    * `CommentLookup.IsPartOf`
  The main statements are:
    * `CommentSpan.widens_ofMatch`
    * `CommentSpan.widens_ofMatch_ignore`
    * `Extract.visible_strip_of_widens`
    * `TokenizedDocument.lookup_widens`
-/

namespace Marginalia

------------------------------------------------------------
-- Parts of Spans
------------------------------------------------------------

/- The span starts no earlier than another one and stops no later. -/
structure CommentSpan.IsPartOf (span wider : CommentSpan) : Prop where
  start_le :
    wider.startLine < span.startLine ∨
      (wider.startLine = span.startLine ∧
        wider.startColumn ≤ span.startColumn)
  le_stop :
    span.stopLine < wider.stopLine ∨
      (span.stopLine = wider.stopLine ∧
        span.stopColumn ≤ wider.stopColumn)

/- The range starts no earlier than another one and stops no later. -/
structure Range.IsPartOf (range wider : Range) : Prop where
  start_le :
    wider.start.line < range.start.line ∨
      (wider.start.line = range.start.line ∧
        wider.start.character ≤ range.start.character)
  le_stop :
    range.stop.line < wider.stop.line ∨
      (range.stop.line = wider.stop.line ∧
        range.stop.character ≤ wider.stop.character)

/- The range of a part of a span is a part of its range. -/
theorem CommentSpan.isPartOf_toRange
    {span wider : CommentSpan}
    (lines : Array Bytes)
    (hPart : span.IsPartOf wider) :
    (span.toRange lines).IsPartOf (wider.toRange lines) where
  start_le := by
    unfold toRange
    dsimp only
    rcases hPart.start_le with hBefore | ⟨hSame, hColumn⟩
    · exact Or.inl (Int.ofNat_lt.mpr hBefore)
    · refine Or.inr ⟨congrArg _ hSame, Int.ofNat_le.mpr ?_⟩
      rw [hSame]
      exact Utf16.ofByteColumn_mono _ hColumn
  le_stop := by
    unfold toRange
    dsimp only
    rcases hPart.le_stop with hAfter | ⟨hSame, hColumn⟩
    · exact Or.inl (Int.ofNat_lt.mpr hAfter)
    · refine Or.inr ⟨congrArg _ hSame, Int.ofNat_le.mpr ?_⟩
      rw [hSame]
      exact Utf16.ofByteColumn_mono _ hColumn

------------------------------------------------------------
-- Lines That Hold Nothing Else
------------------------------------------------------------

/- Only white space stands before a column of a line. -/
def CommentSpan.WhiteBefore (lines : Array Bytes) (place : Nat × Nat) : Prop :=
  ∀ (column : Nat) (b : UInt8),
    column < place.2 →
      (lines.getD place.1 [])[column]? = some b →
        Ascii.isSpace b = true

/- Only white space stands behind a column of a line. -/
def CommentSpan.WhiteAfter (lines : Array Bytes) (place : Nat × Nat) : Prop :=
  ∀ (column : Nat) (b : UInt8),
    place.2 ≤ column →
      (lines.getD place.1 [])[column]? = some b →
        Ascii.isSpace b = true

namespace LineRun

variable {lines : Array Bytes}
variable {tokens : Nat → List Token}
variable {scope : Scope}
variable {line : Nat}
variable {run : LineRun}

/- A byte of a token that is white is white space. -/
theorem isSpace_of_isWhite
    {text : Bytes}
    {t : Token}
    {column : Nat}
    {b : UInt8}
    (hWhite : t.isWhite text = true)
    (hStart : t.start ≤ column)
    (hStop : column < t.stop)
    (hItem : text[column]? = some b) :
    Ascii.isSpace b = true :=
  List.all_eq_true.mp hWhite b
    (Bytes.mem_slice_iff.mpr ⟨column, hStart, hStop, hItem⟩)

/-
  The comment of a line that holds nothing else begins no later
  than the first content, and only white tokens come after it.
-/
theorem sides_of_onlyIn
    {ts : List Token}
    (hOnly : (onlyIn lines scope line).eval tokens = some (run, ts)) :
    run.first ≤ firstContent (lines.getD line []) (tokens line) ∧
      ∀ t ∈ (tokens line).drop (run.last + 1),
        t.isWhite (lines.getD line []) = true := by
  unfold onlyIn at hOnly
  dsimp only at hOnly
  split at hOnly
  · cases hOnly
  · simp only [TokenQuery.eval_bind, TokenQuery.eval_tokensOf,
      TokenQuery.eval_pure] at hOnly
    rcases Option.map_eq_some_iff.mp hOnly with ⟨other, hRun, hPair⟩
    cases hPair
    unfold only? at hRun
    dsimp only at hRun
    split at hRun
    · cases hRun
    · split at hRun
      · split at hRun
        · next hWhite =>
            cases hRun
            exact ⟨Nat.sub_le _ _, List.all_eq_true.mp hWhite⟩
        · cases hRun
      · cases hRun

/- So there is only white space on both sides of it. -/
theorem white_of_onlyIn
    (hPartition :
      Tokens.Partition (lines.getD line []).length (tokens line))
    (hOnly :
      (onlyIn lines scope line).eval tokens = some (run, tokens line)) :
    CommentSpan.WhiteBefore lines
        (line, run.startColumn (tokens line)) ∧
      CommentSpan.WhiteAfter lines
        (line, run.stopColumn (tokens line)) := by
  rcases sides_of_onlyIn hOnly with ⟨hContent, hAfter⟩
  rcases maximal_of_onlyIn hOnly with ⟨_, _, _, hIn⟩
  rcases exists_startColumn hIn with ⟨first, hFirst, hStartColumn⟩
  rcases exists_stopColumn hIn with ⟨last, hLast, hStopColumn⟩
  -- The token that covers a byte outside the run is not in the run.
  have hCovered :
      ∀ {column : Nat} {b : UInt8},
        (lines.getD line [])[column]? = some b →
          ∃ (j : Nat) (t : Token),
            (tokens line)[j]? = some t ∧
              t.start ≤ column ∧ column < t.stop := by
    intro column b hItem
    have hLength := (List.getElem?_eq_some_iff.mp hItem).1
    rcases Tokens.exists_mem_of_lt hPartition hLength with
      ⟨t, hToken, hCovers⟩
    rcases List.mem_iff_getElem?.mp hToken with ⟨j, hIndex⟩
    exact ⟨j, t, hIndex, hCovers⟩
  constructor
  · intro column b hColumn hItem
    rcases hCovered hItem with ⟨j, t, hIndex, hStart, hStop⟩
    rw [hStartColumn] at hColumn
    have hBefore : j < run.first := by
      apply Nat.lt_of_not_le
      intro hLe
      have hOrder :=
        (Tokens.le_of_index_le hPartition hFirst hIndex hLe).1
      dsimp only at hColumn
      omega
    rcases List.getElem?_eq_some_iff.mp hIndex with ⟨hLt, rfl⟩
    have hWhite :=
      List.not_of_lt_findIdx (Nat.lt_of_lt_of_le hBefore hContent)
    exact
      isSpace_of_isWhite (by simpa using hWhite) hStart hStop hItem
  · intro column b hColumn hItem
    rcases hCovered hItem with ⟨j, t, hIndex, hStart, hStop⟩
    rw [hStopColumn] at hColumn
    have hBehind : run.last + 1 ≤ j := by
      apply Nat.lt_of_not_le
      intro hLe
      have hOrder :=
        (Tokens.le_of_index_le hPartition hIndex hLast hLe).2
      dsimp only at hColumn
      omega
    have hDropped : t ∈ (tokens line).drop (run.last + 1) := by
      apply List.mem_of_getElem? (i := j - (run.last + 1))
      rw [List.getElem?_drop, Nat.add_sub_cancel' hBehind]
      exact hIndex
    exact
      isSpace_of_isWhite (hAfter t hDropped) hStart hStop hItem

end LineRun

------------------------------------------------------------
-- Widening
------------------------------------------------------------

namespace CommentSpan

variable {lines : Array Bytes}
variable {tokens : Nat → List Token}
variable {scope : Scope}
variable {policy : Indentation}
variable {text : Bytes}

/- A start stays, or moves to a line above over white space. -/
def WidensUp (lines : Array Bytes) (place wider : Nat × Nat) : Prop :=
  wider = place ∨ (wider.1 < place.1 ∧ WhiteBefore lines place)

/- A stop stays, or moves to a line below over white space. -/
def WidensDown (lines : Array Bytes) (place wider : Nat × Nat) : Prop :=
  wider = place ∨ (place.1 < wider.1 ∧ WhiteAfter lines place)

/- Both ends of a span stay, or move away over white space. -/
structure Widens
    (lines : Array Bytes)
    (span wider : CommentSpan) : Prop where
  up :
    WidensUp lines (span.startLine, span.startColumn)
      (wider.startLine, wider.startColumn)
  down :
    WidensDown lines (span.stopLine, span.stopColumn)
      (wider.stopLine, wider.stopColumn)

/- A span that stays as it is. -/
theorem widens_refl
    (lines : Array Bytes)
    (span : CommentSpan) :
    Widens lines span span :=
  ⟨Or.inl rfl, Or.inl rfl⟩

/- A span is a part of what it widens to. -/
theorem isPartOf_of_widens
    {span wider : CommentSpan}
    (hWidens : Widens lines span wider) :
    span.IsPartOf wider where
  start_le := by
    rcases hWidens.up with hSame | ⟨hBefore, _⟩
    · rw [Prod.mk.injEq] at hSame
      exact Or.inr ⟨hSame.1, Nat.le_of_eq hSame.2⟩
    · exact Or.inl hBefore
  le_stop := by
    rcases hWidens.down with hSame | ⟨hAfter, _⟩
    · rw [Prod.mk.injEq] at hSame
      exact Or.inr ⟨hSame.1.symm, Nat.le_of_eq hSame.2.symm⟩
    · exact Or.inl hAfter

/- Merging the lines above widens a start with white space before it. -/
theorem widensUp_mergeUp
    {line : Nat}
    {reached : Nat × Nat}
    (hLine : line ≤ reached.1)
    (hWhite : WhiteBefore lines reached) :
    WidensUp lines reached
      ((mergeUp lines scope policy text line reached).eval tokens) := by
  rcases mergeUp_reaches line reached with hSame | ⟨hBefore, _⟩
  · exact Or.inl hSame
  · exact Or.inr ⟨Nat.lt_of_lt_of_le hBefore hLine, hWhite⟩

/- Merging the lines below widens a stop with white space behind it. -/
theorem widensDown_mergeDown
    {line remaining : Nat}
    {reached : Nat × Nat}
    (hLine : reached.1 < line)
    (hWhite : WhiteAfter lines reached) :
    WidensDown lines reached
      ((mergeDown lines scope policy text remaining line reached).eval
        tokens) := by
  rcases mergeDown_reaches remaining line reached with
    hSame | ⟨hAfter, _, _⟩
  · exact Or.inl hSame
  · exact Or.inr ⟨Nat.lt_of_lt_of_le hLine hAfter, hWhite⟩

/-
  Without a look at the indentation no fewer lines above are
  merged.  The induction is on the lines; where the indentation
  stops one of the two, the other one may go on.
-/
theorem widensUp_mergeUp_ignore
    (hTokens : Tokens.Partitioned lines tokens)
    (line : Nat) :
    ∀ {reached : Nat × Nat},
      line ≤ lines.size →
        line ≤ reached.1 →
          WhiteBefore lines reached →
            WidensUp lines
              ((mergeUp lines scope .strict text line reached).eval
                tokens)
              ((mergeUp lines scope .ignore text line reached).eval
                tokens) := by
  induction line with
  | zero =>
      intro reached _ _ _
      exact Or.inl rfl
  | succ line ih =>
      intro reached hSize hLine hWhite
      unfold mergeUp
      rw [TokenQuery.eval_bind, TokenQuery.eval_bind]
      cases hOnly : (LineRun.onlyIn lines scope line).eval tokens with
      | none => exact Or.inl rfl
      | some own =>
          rcases own with ⟨run, ts⟩
          rcases LineRun.maximal_of_onlyIn hOnly with ⟨rfl, _⟩
          have hOwn :=
            (LineRun.white_of_onlyIn (hTokens line hSize) hOnly).1
          dsimp only
          rw [if_pos (show compatible .ignore _ text = true from rfl)]
          split
          · exact ih (Nat.le_of_succ_le hSize) (Nat.le_refl line) hOwn
          · refine Or.inr ⟨?_, hWhite⟩
            rcases
                @mergeUp_reaches tokens scope lines .ignore text line
                  (line, run.startColumn (tokens line)) with
              hSame | ⟨hBefore, _⟩
            · rw [hSame]
              exact hLine
            · exact Nat.lt_of_lt_of_le hBefore (Nat.le_of_succ_le hLine)

/- Without a look at the indentation no fewer lines below are merged. -/
theorem widensDown_mergeDown_ignore
    (hTokens : Tokens.Partitioned lines tokens)
    (remaining : Nat) :
    ∀ {line : Nat} {reached : Nat × Nat},
      line + remaining ≤ lines.size →
        reached.1 < line →
          WhiteAfter lines reached →
            WidensDown lines
              ((mergeDown lines scope .strict text remaining line
                  reached).eval
                tokens)
              ((mergeDown lines scope .ignore text remaining line
                  reached).eval
                tokens) := by
  induction remaining with
  | zero =>
      intro line reached _ _ _
      exact Or.inl rfl
  | succ remaining ih =>
      intro line reached hSize hLine hWhite
      unfold mergeDown
      rw [TokenQuery.eval_bind, TokenQuery.eval_bind]
      cases hOnly : (LineRun.onlyIn lines scope line).eval tokens with
      | none => exact Or.inl rfl
      | some own =>
          rcases own with ⟨run, ts⟩
          rcases LineRun.maximal_of_onlyIn hOnly with ⟨rfl, _⟩
          have hOwn :=
            (LineRun.white_of_onlyIn (hTokens line (by omega)) hOnly).2
          dsimp only
          rw [if_pos (show compatible .ignore _ text = true from rfl)]
          split
          · exact ih (by omega) (Nat.lt_succ_self line) hOwn
          · refine Or.inr ⟨?_, hWhite⟩
            rcases
                @mergeDown_reaches tokens scope lines .ignore text
                  remaining (line + 1)
                  (line, run.stopColumn (tokens line)) with
              hSame | ⟨hAfter, _, _⟩
            · rw [hSame]
              exact hLine
            · exact Nat.lt_trans hLine hAfter

/-
  A line comment whose line holds something else is not merged, and
  any other one is all there is in its line.
-/
theorem own_or_not_own
    {position : Position}
    {m : CommentMatch}
    {token : Token}
    (hFound : CommentMatch.Located lines tokens position m token) :
    (∃ run,
        LineRun.around (tokens m.line) m.tokenIndex m.scope = run ∧
          (LineRun.onlyIn lines m.scope m.line).eval tokens =
            some (run, tokens m.line)) ∨
      ∀ policy? : Option Indentation,
        (ofLine lines m policy?).eval tokens =
          (ofLine lines m none).eval tokens := by
  have hToken := hFound.getElem_eq
  have hCarries : token.carries m.scope = true := by
    have hScope := Token.properties_of_commentScope? hFound.scope_eq
    exact List.contains_iff_mem.mpr hScope.1
  have hMaximal := LineRun.maximal_around hToken hCarries
  have hIn :=
    LineRun.within_around (List.getElem?_eq_some_iff.mp hToken).1 m.scope
  generalize hAround :
    LineRun.around (tokens m.line) m.tokenIndex m.scope = run
      at hMaximal hIn
  cases hOwn :
      ((LineRun.onlyIn lines m.scope m.line).eval tokens).any
        (fun own => own.1.first == run.first) with
  | true =>
      exact
        Or.inl
          ⟨run, rfl, LineRun.eval_onlyIn_of_any hMaximal hIn hOwn⟩
  | false =>
      right
      intro policy?
      rw [eval_ofLine_of_not_own hAround (fun _ => hOwn),
        eval_ofLine_of_not_own hAround (fun _ => hOwn)]

/- Merging lines widens a line comment. -/
theorem widens_ofLine
    {position : Position}
    {m : CommentMatch}
    {token : Token}
    (hTokens : Tokens.Partitioned lines tokens)
    (hFound : CommentMatch.Located lines tokens position m token)
    (policy : Indentation) :
    Widens lines ((ofLine lines m none).eval tokens)
      ((ofLine lines m (some policy)).eval tokens) := by
  rcases own_or_not_own hFound with ⟨run, hAround, hOwn⟩ | hNotOwn
  · have hWhite :=
      LineRun.white_of_onlyIn (hTokens m.line hFound.line_lt) hOwn
    have hAlone : (none : Option Indentation).isSome = true →
        ((LineRun.onlyIn lines m.scope m.line).eval tokens).any
            (fun own => own.1.first == run.first) = false :=
      fun hSome => absurd hSome Bool.false_ne_true
    rw [eval_ofLine_of_not_own hAround hAlone,
      eval_ofLine_of_own hOwn hAround policy]
    exact
      ⟨widensUp_mergeUp (Nat.le_refl m.line) hWhite.1,
        widensDown_mergeDown (Nat.lt_succ_self m.line) hWhite.2⟩
  · rw [hNotOwn (some policy)]
    exact widens_refl lines _

/- Merging all lines widens what merging some of them does. -/
theorem widens_ofLine_ignore
    {position : Position}
    {m : CommentMatch}
    {token : Token}
    (hTokens : Tokens.Partitioned lines tokens)
    (hFound : CommentMatch.Located lines tokens position m token) :
    Widens lines ((ofLine lines m (some .strict)).eval tokens)
      ((ofLine lines m (some .ignore)).eval tokens) := by
  have hLine := hFound.line_lt
  rcases own_or_not_own hFound with ⟨run, hAround, hOwn⟩ | hNotOwn
  · have hWhite := LineRun.white_of_onlyIn (hTokens m.line hLine) hOwn
    rw [eval_ofLine_of_own hOwn hAround,
      eval_ofLine_of_own hOwn hAround]
    exact
      ⟨widensUp_mergeUp_ignore hTokens m.line (Nat.le_of_lt hLine)
          (Nat.le_refl m.line) hWhite.1,
        widensDown_mergeDown_ignore hTokens _ (by omega)
          (Nat.lt_succ_self m.line) hWhite.2⟩
  · rw [hNotOwn (some .strict), hNotOwn (some .ignore)]
    exact widens_refl lines _

/- Block comments are not merged. -/
theorem ofMatch_eq_of_block
    {m : CommentMatch}
    (hBlock : m.scope.isLineComment = false)
    (policy? other? : Option Indentation) :
    ofMatch lines m policy? = ofMatch lines m other? := by
  unfold ofMatch
  rw [if_neg (by rw [hBlock]; exact Bool.false_ne_true),
    if_neg (by rw [hBlock]; exact Bool.false_ne_true)]

/- Merging lines widens a comment. -/
theorem widens_ofMatch
    {position : Position}
    {m : CommentMatch}
    (hTokens : Tokens.Partitioned lines tokens)
    (hMatch :
      (CommentMatch.locate lines position).eval tokens = some m)
    (policy : Indentation) :
    Widens lines ((ofMatch lines m none).eval tokens)
      ((ofMatch lines m (some policy)).eval tokens) := by
  rcases CommentMatch.located_of_locate hTokens hMatch with
    ⟨token, hFound⟩
  cases hScope : m.scope.isLineComment with
  | true =>
      unfold ofMatch
      rw [if_pos hScope, if_pos hScope]
      exact widens_ofLine hTokens hFound policy
  | false =>
      rw [ofMatch_eq_of_block hScope none (some policy)]
      exact widens_refl lines _

/- Merging all lines widens what merging some of them does. -/
theorem widens_ofMatch_ignore
    {position : Position}
    {m : CommentMatch}
    (hTokens : Tokens.Partitioned lines tokens)
    (hMatch :
      (CommentMatch.locate lines position).eval tokens = some m) :
    Widens lines ((ofMatch lines m (some .strict)).eval tokens)
      ((ofMatch lines m (some .ignore)).eval tokens) := by
  rcases CommentMatch.located_of_locate hTokens hMatch with
    ⟨token, hFound⟩
  cases hScope : m.scope.isLineComment with
  | true =>
      unfold ofMatch
      rw [if_pos hScope, if_pos hScope]
      exact widens_ofLine_ignore hTokens hFound
  | false =>
      rw [ofMatch_eq_of_block hScope (some .strict) (some .ignore)]
      exact widens_refl lines _

end CommentSpan

------------------------------------------------------------
-- The Text of a Wider Span
------------------------------------------------------------

namespace Extract

variable {lines : Array Bytes}
variable {tokens : Nat → List Token}
variable {span wider : CommentSpan}

/- The parts of a span are those of its lines. -/
theorem mem_parts_iff
    {part' : LinePart}
    (span : CommentSpan)
    (remaining : Nat) :
    ∀ line : Nat,
      part' ∈ (parts lines span remaining line).eval tokens ↔
        ∃ l, line ≤ l ∧ l < line + remaining ∧
          part span l (lines.getD l []) (tokens l) = part' := by
  induction remaining with
  | zero =>
      intro line
      constructor
      · intro hPart
        cases hPart
      · rintro ⟨l, hFrom, hTo, _⟩
        omega
  | succ remaining ih =>
      intro line
      simp only [parts, TokenQuery.eval_bind, TokenQuery.eval_tokensOf,
        TokenQuery.eval_pure, List.mem_cons, ih]
      constructor
      · rintro (rfl | ⟨l, hFrom, hTo, hPart⟩)
        · exact ⟨line, Nat.le_refl _, by omega, rfl⟩
        · exact ⟨l, by omega, by omega, hPart⟩
      · rintro ⟨l, hFrom, hTo, rfl⟩
        rcases Nat.lt_or_eq_of_le hFrom with hLater | rfl
        · exact Or.inr ⟨l, hLater, by omega, rfl⟩
        · exact Or.inl rfl

/-
  In a line of a span, the columns of a wider one are wider apart,
  and only white space stands between them.
-/
structure WiderApart
    (text : Bytes)
    (narrow wide : Nat × Nat) : Prop where
  start_le : wide.1 ≤ narrow.1
  le_stop : narrow.2 ≤ wide.2
  before : ∀ b ∈ text.slice wide.1 narrow.1, Ascii.isSpace b = true
  after : ∀ b ∈ text.slice narrow.2 wide.2, Ascii.isSpace b = true

/- The first column stays, or moves to the front over white space. -/
theorem fst_columns_of_widens
    {line : Nat}
    (hWidens : CommentSpan.Widens lines span wider)
    (hFrom : span.startLine ≤ line)
    (text : Bytes) :
    (columns wider line text).1 = (columns span line text).1 ∨
      ((columns wider line text).1 = 0 ∧
        CommentSpan.WhiteBefore lines
          (line, (columns span line text).1)) := by
  rcases hWidens.up with hSame | ⟨hAbove, hWhite⟩
  · rw [Prod.mk.injEq] at hSame
    left
    unfold columns
    rw [hSame.1, hSame.2]
  · right
    unfold columns
    dsimp only at hAbove ⊢
    rw [if_neg (by omega)]
    refine ⟨rfl, ?_⟩
    intro column b hColumn hItem
    dsimp only at hColumn hItem
    split at hColumn
    · next hLine =>
        rw [hLine] at hItem
        exact
          hWhite column b
            (Nat.lt_of_lt_of_le hColumn (Nat.min_le_left _ _)) hItem
    · exact absurd hColumn (Nat.not_lt_zero column)

/- The last column stays, or moves to the end over white space. -/
theorem snd_columns_of_widens
    {line : Nat}
    (hWidens : CommentSpan.Widens lines span wider)
    (hTo : line ≤ span.stopLine) :
    (columns wider line (lines.getD line [])).2 =
        (columns span line (lines.getD line [])).2 ∨
      ((columns wider line (lines.getD line [])).2 =
          (lines.getD line []).length ∧
        CommentSpan.WhiteAfter lines
          (line, (columns span line (lines.getD line [])).2)) := by
  rcases hWidens.down with hSame | ⟨hBelow, hWhite⟩
  · rw [Prod.mk.injEq] at hSame
    left
    unfold columns
    rw [hSame.1, hSame.2]
  · right
    unfold columns
    dsimp only at hBelow ⊢
    rw [if_neg (show line ≠ wider.stopLine by omega)]
    refine ⟨rfl, ?_⟩
    intro column b hColumn hItem
    have hLength := (List.getElem?_eq_some_iff.mp hItem).1
    dsimp only at hColumn hItem hLength
    split at hColumn
    · next hLine =>
        rw [hLine] at hItem hColumn hLength
        refine hWhite column b ?_ hItem
        dsimp only
        omega
    · omega

/- The last column is in the line. -/
theorem snd_columns_le
    (span : CommentSpan)
    (line : Nat)
    (text : Bytes) :
    (columns span line text).2 ≤ text.length := by
  unfold columns
  dsimp only
  split
  · exact Nat.min_le_right _ _
  · exact Nat.le_refl _

/- The columns of a span and of what it widens to. -/
theorem widerApart_columns
    {line : Nat}
    (hWidens : CommentSpan.Widens lines span wider)
    (hFrom : span.startLine ≤ line)
    (hTo : line ≤ span.stopLine) :
    WiderApart (lines.getD line [])
      (columns span line (lines.getD line []))
      (columns wider line (lines.getD line [])) := by
  have hStarts :=
    fst_columns_of_widens hWidens hFrom (lines.getD line [])
  have hStops := snd_columns_of_widens hWidens hTo
  have hBound := snd_columns_le span line (lines.getD line [])
  generalize columns span line (lines.getD line []) = narrow
    at hStarts hStops hBound ⊢
  generalize columns wider line (lines.getD line []) = wide
    at hStarts hStops ⊢
  constructor
  case start_le => omega
  case le_stop => omega
  case before =>
    intro b hByte
    rcases Bytes.mem_slice_iff.mp hByte with
      ⟨column, hLeft, hRight, hItem⟩
    rcases hStarts with hSame | ⟨_, hWhite⟩
    · omega
    · exact hWhite column b hRight hItem
  case after =>
    intro b hByte
    rcases Bytes.mem_slice_iff.mp hByte with
      ⟨column, hLeft, hRight, hItem⟩
    rcases hStops with hSame | ⟨_, hWhite⟩
    · omega
    · exact hWhite column b hLeft hItem

/- A raw line keeps its text between columns that are wider apart. -/
theorem visible_raw_of_widerApart
    {text : Bytes}
    {narrow wide : Nat × Nat}
    (hApart : WiderApart text narrow wide)
    (hVisible :
      Bytes.Visible
        (Marker.stripLine (text.slice narrow.1 narrow.2))) :
    Bytes.Visible (Marker.stripLine (text.slice wide.1 wide.2)) := by
  have hStart := hApart.start_le
  have hStop := hApart.le_stop
  have hOrder : narrow.1 ≤ narrow.2 := by
    rcases Marker.visible_stripLine_iff.mp hVisible with ⟨b, hByte, _⟩
    have hSlice :=
      (List.dropWhile_sublist Ascii.isBlank).subset
        (List.mem_of_mem_drop hByte)
    rcases Bytes.mem_slice_iff.mp hSlice with ⟨column, hFrom, hTo, _⟩
    omega
  have hPieces :
      text.slice wide.1 wide.2 =
        text.slice wide.1 narrow.1 ++ text.slice narrow.1 narrow.2 ++
          text.slice narrow.2 wide.2 := by
    rw [← Bytes.slice_append_slice hStart hOrder,
      ← Bytes.slice_append_slice (Nat.le_trans hStart hOrder) hStop]
  rw [hPieces]
  exact
    Marker.visible_stripLine_of_white hApart.before hApart.after
      hVisible

/- The parts of all lines of a span. -/
def allParts
    (lines : Array Bytes)
    (tokens : Nat → List Token)
    (span : CommentSpan) : List LinePart :=
  (parts lines span (lineCount lines span) span.startLine).eval tokens

/- The parts of a span are those of the lines that it holds. -/
theorem mem_allParts_iff
    {p : LinePart} :
    p ∈ allParts lines tokens span ↔
      ∃ l, span.startLine ≤ l ∧ l ≤ span.stopLine ∧ l < lines.size ∧
        part span l (lines.getD l []) (tokens l) = p := by
  unfold allParts lineCount
  rw [mem_parts_iff]
  constructor
  · rintro ⟨l, hFrom, hTo, hPart⟩
    exact ⟨l, hFrom, by omega, by omega, hPart⟩
  · rintro ⟨l, hFrom, hTo, hLine, hPart⟩
    exact ⟨l, hFrom, by omega, hPart⟩

/- A line of a span is a line of what the span widens to. -/
theorem exists_wider_part
    {p : LinePart}
    (hWidens : CommentSpan.Widens lines span wider)
    (hPart : p ∈ allParts lines tokens span) :
    ∃ l < lines.size,
      part span l (lines.getD l []) (tokens l) = p ∧
        part wider l (lines.getD l []) (tokens l) ∈
          allParts lines tokens wider ∧
        WiderApart (lines.getD l [])
          (columns span l (lines.getD l []))
          (columns wider l (lines.getD l [])) := by
  rcases mem_allParts_iff.mp hPart with ⟨l, hFrom, hTo, hLine, rfl⟩
  have hIsPart := CommentSpan.isPartOf_of_widens hWidens
  have hStart := hIsPart.start_le
  have hStop := hIsPart.le_stop
  exact
    ⟨l, hLine, rfl,
      mem_allParts_iff.mpr ⟨l, by omega, by omega, hLine, rfl⟩,
      widerApart_columns hWidens hFrom hTo⟩

/-
  A span that is widened keeps its text.  Lines without marks may
  get one from the lines that are added, and then their marks are
  no longer told by the text; but a visible byte that is left in
  a line was no token of a mark.
-/
theorem visible_strip_of_widens
    {scope : Scope}
    (hTokens : Tokens.Partitioned lines tokens)
    (hWidens : CommentSpan.Widens lines span wider)
    (hScope : scope.isLineComment = true)
    (hVisible :
      ∃ line ∈ strip scope (allParts lines tokens span),
        line.Visible) :
    ∃ line ∈ strip scope (allParts lines tokens wider),
      line.Visible := by
  unfold strip at hVisible ⊢
  rw [hScope] at hVisible ⊢
  dsimp only at hVisible ⊢
  rw [if_pos rfl] at hVisible ⊢
  cases hMarked :
      (allParts lines tokens span).any LinePart.marked with
  | true =>
      rw [hMarked, if_pos rfl] at hVisible
      rcases List.any_eq_true.mp hMarked with ⟨q, hMarkedPart, hMark⟩
      rcases exists_wider_part hWidens hMarkedPart with
        ⟨k, _, rfl, hWiderMarked, hApartMarked⟩
      have hWiderMark :
          (allParts lines tokens wider).any LinePart.marked = true :=
        List.any_eq_true.mpr
          ⟨_, hWiderMarked,
            marked_of_marked hApartMarked.start_le
              hApartMarked.le_stop hMark⟩
      rcases hVisible with ⟨line, hLine, hVisible⟩
      rcases List.mem_map.mp hLine with ⟨p, hPart, rfl⟩
      rcases exists_wider_part hWidens hPart with
        ⟨l, _, rfl, hWider, hApart⟩
      rw [hWiderMark, if_pos rfl]
      exact
        ⟨_, List.mem_map.mpr ⟨_, hWider, rfl⟩,
          visible_content_of_visible hApart.start_le hApart.le_stop
            hVisible⟩
  | false =>
      rw [hMarked, if_neg Bool.false_ne_true, List.map_map] at hVisible
      rcases hVisible with ⟨line, hLine, hVisible⟩
      rcases List.mem_map.mp hLine with ⟨p, hPart, rfl⟩
      rcases exists_wider_part hWidens hPart with
        ⟨l, hInside, rfl, hWider, hApart⟩
      split
      · have hUnmarked := List.any_eq_false.mp hMarked _ hPart
        have hRaw :
            Bytes.Visible
              (part span l (lines.getD l []) (tokens l)).raw := by
          rcases hVisible with ⟨b, hByte, hNot⟩
          rcases Marker.mem_stripLine hByte with rfl | hRaw
          · cases hNot
          · exact ⟨b, hRaw, hNot⟩
        have hContent :=
          visible_content_of_not_marked (hTokens l hInside)
            (Bool.eq_false_iff.mpr hUnmarked) hRaw
        exact
          ⟨_, List.mem_map.mpr ⟨_, hWider, rfl⟩,
            visible_content_of_visible hApart.start_le
              hApart.le_stop hContent⟩
      · rw [List.map_map]
        exact
          ⟨_, List.mem_map.mpr ⟨_, hWider, rfl⟩,
            visible_raw_of_widerApart hApart hVisible⟩

end Extract

------------------------------------------------------------
-- Looking Up
------------------------------------------------------------

namespace CommentLookup

variable {lines : Array Bytes}
variable {tokens : Nat → List Token}
variable {settings : MergeSettings}
variable {position : Position}
variable {m : CommentMatch}

/- What is found is found by the other lookup too, in a wider range. -/
def IsPartOf (lookup wider : CommentLookup) : Prop :=
  ∀ block,
    lookup = .found block →
      ∃ other,
        wider = .found other ∧ block.range.IsPartOf other.range

/- There is text in what is left of a span that is not blank. -/
theorem eval_text?_isSome_iff
    {span : CommentSpan}
    {scope : Scope} :
    ((Extract.text? lines span scope).eval tokens).isSome = true ↔
      ∃ line ∈
          Extract.strip scope (Extract.allParts lines tokens span),
        line.Visible := by
  rw [← Extract.joinLines_ne_nil_iff]
  unfold Extract.text? Extract.allParts
  rw [TokenQuery.eval_bind, TokenQuery.eval_pure]
  cases hText :
      Extract.joinLines
        (Extract.strip scope
          ((Extract.parts lines span (Extract.lineCount lines span)
              span.startLine).eval
            tokens)) with
  | nil => simp
  | cons b rest => simp

/- A comment whose text is not blank is found. -/
theorem exists_found_of_visible
    {span : CommentSpan}
    (hMatch : (CommentMatch.locate lines position).eval tokens = some m)
    (hSpan :
      (CommentSpan.ofMatch lines m settings.policy?).eval tokens = span)
    (hVisible :
      ∃ line ∈
          Extract.strip m.scope (Extract.allParts lines tokens span),
        line.Visible) :
    ∃ block,
      (compute lines settings position).eval tokens = .found block ∧
        block.range = span.toRange lines := by
  rcases
      Option.isSome_iff_exists.mp (eval_text?_isSome_iff.mpr hVisible)
    with ⟨text, hText⟩
  have hExtracted :
      (ExtractedText.ofSpan lines span m.scope).eval tokens =
        some ⟨text, Identifier.isIdentifier text⟩ := by
    rw [ExtractedText.ofSpan, TokenQuery.eval_bind, hText]
    rfl
  unfold compute
  rw [TokenQuery.eval_bind, hMatch]
  dsimp only
  rw [TokenQuery.eval_bind, hSpan, TokenQuery.eval_bind, hExtracted,
    TokenQuery.eval_pure]
  exact exists_found_of_ofSpan hExtracted

/- Lookups that find the same span have the same outcome. -/
theorem eval_compute_congr
    {other : MergeSettings}
    (hSpan :
      ∀ m,
        (CommentMatch.locate lines position).eval tokens = some m →
          (CommentSpan.ofMatch lines m settings.policy?).eval tokens =
            (CommentSpan.ofMatch lines m other.policy?).eval tokens) :
    (compute lines settings position).eval tokens =
      (compute lines other position).eval tokens := by
  unfold compute
  rw [TokenQuery.eval_bind, TokenQuery.eval_bind]
  cases hMatch : (CommentMatch.locate lines position).eval tokens with
  | none => rfl
  | some m =>
      dsimp only
      rw [TokenQuery.eval_bind, hSpan m hMatch,
        TokenQuery.eval_bind tokens
          (CommentSpan.ofMatch lines m other.policy?)]

/- A lookup that finds a wider span finds the comment as well. -/
theorem isPartOf_of_widens
    {other : MergeSettings}
    (hTokens : Tokens.Partitioned lines tokens)
    (hWidens :
      ∀ m,
        (CommentMatch.locate lines position).eval tokens = some m →
          CommentSpan.Widens lines
            ((CommentSpan.ofMatch lines m settings.policy?).eval tokens)
            ((CommentSpan.ofMatch lines m other.policy?).eval
              tokens)) :
    ((compute lines settings position).eval tokens).IsPartOf
      ((compute lines other position).eval tokens) := by
  intro block hBlock
  rcases exists_of_found hBlock with
    ⟨m, span, hMatch, hSpan, hText, hRange, _⟩
  have hSome :
      ((Extract.text? lines span m.scope).eval tokens).isSome = true := by
    rw [hText]
    rfl
  have hVisible := eval_text?_isSome_iff.mp hSome
  have hWider := hWidens m hMatch
  cases hScope : m.scope.isLineComment with
  | true =>
      rw [hSpan] at hWider
      rcases
          exists_found_of_visible hMatch rfl
            (Extract.visible_strip_of_widens hTokens hWider hScope
              hVisible) with
        ⟨wider, hFound, hWiderRange⟩
      refine ⟨wider, hFound, ?_⟩
      rw [hRange, hWiderRange]
      exact
        CommentSpan.isPartOf_toRange lines
          (CommentSpan.isPartOf_of_widens hWider)
  | false =>
      rw [CommentSpan.ofMatch_eq_of_block hScope settings.policy?
        other.policy?] at hSpan
      rcases exists_found_of_visible hMatch hSpan hVisible with
        ⟨wider, hFound, hWiderRange⟩
      refine ⟨wider, hFound, ?_⟩
      rw [hRange, hWiderRange]
      exact
        CommentSpan.isPartOf_toRange lines
          (CommentSpan.isPartOf_of_widens
            (CommentSpan.widens_refl lines span))

end CommentLookup

/-
  For every grammar, document and position, however indentation is
  looked at when lines are not merged, and however much of the
  document is tokenized before each lookup: what is found without
  merging is found if lines that are indented alike are merged,
  and what is found then is found if all lines are, each time in a
  range that the next one holds.

  The same is true of the spans, whether or not anything is left
  of their text, and lookups of block comments do not differ.
-/
theorem TokenizedDocument.lookup_widens
    (grammar : Grammar)
    (document : Document)
    (maxLength : Nat)
    (position : Position)
    (indentation : Indentation)
    (before : MergeSettings → Nat) :
    let fresh := create grammar document maxLength
    let off : MergeSettings := ⟨false, indentation⟩
    let strict : MergeSettings := ⟨true, .strict⟩
    let ignore : MergeSettings := ⟨true, .ignore⟩
    let lookup := fun settings =>
      (answer (CommentLookup.compute fresh.lines settings position)
        (fresh.extend (before settings))).1
    (lookup off).IsPartOf (lookup strict) ∧
      (lookup strict).IsPartOf (lookup ignore) ∧
      ∀ m,
        (CommentMatch.locate fresh.lines position).eval
              fresh.tokensAt =
            some m →
          let span := fun settings : MergeSettings =>
            (CommentSpan.ofMatch fresh.lines m settings.policy?).eval
              fresh.tokensAt
          let range := fun settings : MergeSettings =>
            (span settings).toRange fresh.lines
          (span off).IsPartOf (span strict) ∧
            (span strict).IsPartOf (span ignore) ∧
            (range off).IsPartOf (range strict) ∧
            (range strict).IsPartOf (range ignore) ∧
            (m.scope.isLineComment = false →
              lookup off = lookup strict ∧
                lookup strict = lookup ignore) := by
  intro fresh off strict ignore lookup
  have hFresh := fresh_create grammar document maxLength
  have hTokens :=
    partitioned_tokensAt hFresh
      (partitioned_create grammar document maxLength)
  have hLookup :
      ∀ settings,
        lookup settings =
          (CommentLookup.compute fresh.lines settings position).eval
            fresh.tokensAt := by
    intro settings
    rcases
        answer_extend hFresh
          (CommentLookup.compute fresh.lines settings position)
          (before settings) with
      ⟨_, hAnswer⟩
    exact congrArg Prod.fst hAnswer
  refine ⟨?_, ?_, ?_⟩
  · rw [hLookup off, hLookup strict]
    exact
      CommentLookup.isPartOf_of_widens hTokens
        (fun m hMatch =>
          CommentSpan.widens_ofMatch hTokens hMatch .strict)
  · rw [hLookup strict, hLookup ignore]
    exact
      CommentLookup.isPartOf_of_widens hTokens
        (fun m hMatch =>
          CommentSpan.widens_ofMatch_ignore hTokens hMatch)
  · intro m hMatch span range
    have hStrict :=
      CommentSpan.isPartOf_of_widens
        (CommentSpan.widens_ofMatch hTokens hMatch .strict)
    have hIgnore :=
      CommentSpan.isPartOf_of_widens
        (CommentSpan.widens_ofMatch_ignore hTokens hMatch)
    refine
      ⟨hStrict, hIgnore,
        CommentSpan.isPartOf_toRange fresh.lines hStrict,
        CommentSpan.isPartOf_toRange fresh.lines hIgnore, ?_⟩
    intro hBlock
    have hSame :
        ∀ settings other : MergeSettings,
          (CommentLookup.compute fresh.lines settings position).eval
              fresh.tokensAt =
            (CommentLookup.compute fresh.lines other position).eval
              fresh.tokensAt := by
      intro settings other
      apply CommentLookup.eval_compute_congr
      intro k hOther
      cases hMatch.symm.trans hOther
      rw [CommentSpan.ofMatch_eq_of_block hBlock]
    rw [hLookup off, hLookup strict, hLookup ignore]
    exact ⟨hSame off strict, hSame strict ignore⟩

/-
  Three notes of which the first one is indented by more: alone,
  with the one that is indented alike, and all of them.
-/
theorem TokenizedDocument.lookup_widens_notes :
    let document : Document :=
      ⟨utf8 "file:///a", utf8 "notes", 1, utf8 "\t# a\n # b \n # c"⟩
    let fresh := create Grammar.notes document 0
    let lookup := fun settings =>
      (answer (CommentLookup.compute fresh.lines settings ⟨2, 3⟩)
        (fresh.extend 0)).1
    ∃ note some all,
      lookup ⟨false, .strict⟩ = .found note ∧
        note.range = ⟨⟨2, 1⟩, ⟨2, 4⟩⟩ ∧
        lookup ⟨true, .strict⟩ = .found some ∧
        lookup ⟨true, .ignore⟩ = .found all ∧
        note.range.IsPartOf some.range ∧
        some.range.IsPartOf all.range := by
  intro document fresh lookup
  have hComputed :
      (extendWithin? 5 fresh.lines.size fresh).map
          (fun d =>
            (CommentLookup.compute fresh.lines ⟨false, .strict⟩
              ⟨2, 3⟩).eval d.tokensIn) =
        some
          (.found
            { range := ⟨⟨2, 1⟩, ⟨2, 4⟩⟩
              comment := utf8 "c"
              isLineComment := true
              humanize := true
              scope := utf8 "comment.line.number-sign" }) := by
    decide +kernel
  rcases Option.map_eq_some_iff.mp hComputed with
    ⟨last, hExtend, hNote⟩
  rw [← answer_of_extendWithin? (fresh_create _ _ _) hExtend _ 0]
    at hNote
  rcases
      lookup_widens Grammar.notes document 0 ⟨2, 3⟩ .strict
        (fun _ => 0) with
    ⟨hStrict, hIgnore, _⟩
  rcases hStrict _ hNote with ⟨some, hSome, hNoteRange⟩
  rcases hIgnore some hSome with ⟨all, hAll, hSomeRange⟩
  exact
    ⟨_, some, all, hNote, rfl, hSome, hAll, hNoteRange, hSomeRange⟩

end Marginalia

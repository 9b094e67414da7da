import Marginalia.Proofs.Comment.Runs
import Marginalia.Proofs.Comment.Safety

/-
  This file proves which lines a line comment is merged with.

  Lines that hold nothing but a comment fall into groups of lines
  that follow one another, and in a group all lines are indented
  alike if the indentation is looked at.  A comment that is all
  there is in its line reaches over the group of the line; so it
  does not matter by which token of the group it was found.  Any
  other line comment is a run of tokens in its line.

  The merge looks at the lines above and below on its own, with the
  line of the token in hand.  A group is the same from each of its
  lines, because being indented alike is an equivalence.

  Key definitions include:
    * `LineRun.IsOnly`
    * `CommentSpan.Joins`
    * `CommentSpan.LineGroup`
    * `CommentSpan.CoversGroup`
  The main statements are:
    * `LineRun.eval_onlyIn_eq_some_iff`
    * `CommentSpan.LineGroup.of_mem`
    * `CommentSpan.exists_of_mergeDown`
    * `CommentSpan.coversGroup_ofLine`
    * `TokenizedDocument.ofMatch_line`
-/

namespace Marginalia

------------------------------------------------------------
-- Lines That Hold Nothing Else
------------------------------------------------------------

namespace LineRun

/- The index is that of the first token that is not white. -/
structure IsContent
    (text : Bytes)
    (tokens : List Token)
    (index : Nat) : Prop where
  shown :
    ∃ token, tokens[index]? = some token ∧ token.isWhite text = false
  before :
    ∀ {k : Nat} {t : Token},
      k < index → tokens[k]? = some t → t.isWhite text = true

/-
  The line is not blank, its first token that is not white is one
  of the run, which is as long as it can be with this scope, and
  only white tokens come after the run.
-/
structure IsOnly
    (text : Bytes)
    (tokens : List Token)
    (scope : Scope)
    (run : LineRun) : Prop where
  shown : ∃ b ∈ text, Ascii.isSpace b = false
  content : ∃ index, IsContent text tokens index ∧ Within tokens index run
  maximal : Maximal tokens scope run
  after :
    ∀ {k : Nat} {t : Token},
      run.last < k → tokens[k]? = some t → t.isWhite text = true

variable {text : Bytes}
variable {tokens : List Token}
variable {scope : Scope}
variable {run : LineRun}

/- The first content is where the search for it ends. -/
theorem isContent_firstContent
    {token : Token}
    (hToken : tokens[firstContent text tokens]? = some token) :
    IsContent text tokens (firstContent text tokens) where
  shown := by
    rcases List.getElem?_eq_some_iff.mp hToken with ⟨hLt, rfl⟩
    have hFound :=
      @List.findIdx_getElem _ (fun t : Token => !t.isWhite text)
        tokens hLt
    exact ⟨_, hToken, Bool.not_eq_eq_eq_not.mp hFound⟩
  before := by
    intro k t hLt hItem
    rcases List.getElem?_eq_some_iff.mp hItem with ⟨_, rfl⟩
    simpa using List.not_of_lt_findIdx hLt

/- The search ends at the first content. -/
theorem firstContent_eq_of_isContent
    {index : Nat}
    (hContent : IsContent text tokens index) :
    firstContent text tokens = index := by
  rcases hContent.shown with ⟨token, hToken, hShown⟩
  rcases List.getElem?_eq_some_iff.mp hToken with ⟨hLt, rfl⟩
  refine (List.findIdx_eq hLt).mpr ⟨by simp [hShown], ?_⟩
  intro k hBefore
  have hItem := List.getElem?_eq_getElem (Nat.lt_trans hBefore hLt)
  simp [hContent.before hBefore hItem]

/- A token of what comes after the run stands behind its last index. -/
theorem all_drop_iff :
    (tokens.drop (run.last + 1)).all (fun t => t.isWhite text) = true ↔
      ∀ {k : Nat} {t : Token},
        run.last < k → tokens[k]? = some t → t.isWhite text = true := by
  rw [List.all_eq_true]
  constructor
  · intro hAll k t hAfter hItem
    apply hAll t
    apply List.mem_of_getElem? (i := k - (run.last + 1))
    rw [List.getElem?_drop, Nat.add_sub_cancel' hAfter]
    exact hItem
  · intro hAfter t hToken
    rcases List.mem_iff_getElem?.mp hToken with ⟨k, hItem⟩
    rw [List.getElem?_drop] at hItem
    exact hAfter (by omega) hItem

/- The comment that is looked for is all that the line holds. -/
theorem only?_eq_some_iff
    (hShown : ∃ b ∈ text, Ascii.isSpace b = false) :
    only? text tokens scope = some run ↔
      IsOnly text tokens scope run := by
  constructor
  · intro hOnly
    unfold only? at hOnly
    dsimp only at hOnly
    split at hOnly
    · cases hOnly
    · next token hToken =>
        split at hOnly
        · next hCarries =>
            split at hOnly
            · next hWhite =>
                cases hOnly
                have hIndex := (List.getElem?_eq_some_iff.mp hToken).1
                exact
                  { shown := hShown
                    content :=
                      ⟨_, isContent_firstContent hToken,
                        within_around hIndex scope⟩
                    maximal := maximal_around hToken hCarries
                    after := all_drop_iff.mp hWhite }
            · cases hOnly
        · cases hOnly
  · intro hOnly
    rcases hOnly.content with ⟨index, hContent, hIn⟩
    rcases hContent.shown with ⟨token, hToken, _⟩
    have hCarries :=
      hOnly.maximal.carries hIn.first_le hIn.le_last hToken
    unfold only?
    dsimp only
    rw [firstContent_eq_of_isContent hContent, hToken]
    dsimp only
    rw [if_pos hCarries, around_eq_of_within hOnly.maximal hIn,
      if_pos (all_drop_iff.mpr hOnly.after)]

/- So is the comment that the line is asked for. -/
theorem eval_onlyIn_eq_some_iff
    {lines : Array Bytes}
    {tokens : Nat → List Token}
    {line : Nat} :
    (onlyIn lines scope line).eval tokens = some (run, tokens line) ↔
      IsOnly (lines.getD line []) (tokens line) scope run := by
  unfold onlyIn
  dsimp only
  cases hBlank : (lines.getD line []).isBlankLine with
  | true =>
      rw [if_pos rfl, TokenQuery.eval_pure]
      constructor
      · intro hNone
        cases hNone
      · intro hOnly
        rcases hOnly.shown with ⟨b, hByte, hNot⟩
        rw [List.all_eq_true.mp hBlank b hByte] at hNot
        cases hNot
  | false =>
      have hShown : ∃ b ∈ lines.getD line [], Ascii.isSpace b = false := by
        simpa using List.all_eq_false.mp hBlank
      rw [if_neg Bool.false_ne_true, TokenQuery.eval_bind,
        TokenQuery.eval_tokensOf, TokenQuery.eval_pure,
        ← only?_eq_some_iff hShown, Option.map_eq_some_iff]
      constructor
      · rintro ⟨other, hOther, hPair⟩
        rw [hOther, (Prod.mk.inj hPair).1]
      · intro hRun
        exact ⟨run, hRun, rfl⟩

/- A line holds at most one comment that is all there is in it. -/
theorem IsOnly.unique
    {other : LineRun}
    (hRun : IsOnly text tokens scope run)
    (hOther : IsOnly text tokens scope other) :
    run = other :=
  Option.some.inj
    (((only?_eq_some_iff hRun.shown).mpr hRun).symm.trans
      ((only?_eq_some_iff hRun.shown).mpr hOther))

end LineRun

------------------------------------------------------------
-- Groups of Lines
------------------------------------------------------------

namespace CommentSpan

variable {lines : Array Bytes}
variable {tokens : Nat → List Token}
variable {scope : Scope}
variable {policy : Indentation}
variable {line other top bottom : Nat}

/-
  The other line holds nothing but a comment, and begins with the
  same spaces and tabs if the policy looks at them.
-/
structure Joins
    (lines : Array Bytes)
    (tokens : Nat → List Token)
    (scope : Scope)
    (policy : Indentation)
    (line other : Nat) : Prop where
  only :
    ∃ run, LineRun.IsOnly (lines.getD other []) (tokens other) scope run
  alike :
    policy = .strict →
      indent (lines.getD other []) = indent (lines.getD line [])

/-
  The lines that follow one another around a line, each of which
  joins it; the lines next to them do not.
-/
structure LineGroup
    (lines : Array Bytes)
    (tokens : Nat → List Token)
    (scope : Scope)
    (policy : Indentation)
    (line top bottom : Nat) : Prop where
  top_le : top ≤ line
  le_bottom : line ≤ bottom
  bottom_lt : bottom < lines.size
  joins :
    ∀ {l : Nat},
      top ≤ l → l ≤ bottom → Joins lines tokens scope policy line l
  above :
    ∀ {l : Nat}, l + 1 = top → ¬Joins lines tokens scope policy line l
  below :
    bottom + 1 < lines.size →
      ¬Joins lines tokens scope policy line (bottom + 1)

/- The span reaches over the comments of the group of a line. -/
structure CoversGroup
    (lines : Array Bytes)
    (tokens : Nat → List Token)
    (scope : Scope)
    (policy : Indentation)
    (line : Nat)
    (span : CommentSpan) : Prop where
  group :
    LineGroup lines tokens scope policy line span.startLine
      span.stopLine
  start :
    ∃ run,
      LineRun.IsOnly (lines.getD span.startLine [])
          (tokens span.startLine) scope run ∧
        span.startColumn = run.startColumn (tokens span.startLine)
  stop :
    ∃ run,
      LineRun.IsOnly (lines.getD span.stopLine [])
          (tokens span.stopLine) scope run ∧
        span.stopColumn = run.stopColumn (tokens span.stopLine)

/- The merge takes the lines that join the line in hand. -/
theorem merges_iff_joins :
    Merges lines tokens scope policy (lines.getD line []) other ↔
      Joins lines tokens scope policy line other := by
  constructor
  · rintro ⟨hSome, hAlike⟩
    rcases Option.isSome_iff_exists.mp hSome with ⟨⟨run, ts⟩, hOnly⟩
    rcases LineRun.maximal_of_onlyIn hOnly with ⟨rfl, _⟩
    refine ⟨⟨run, LineRun.eval_onlyIn_eq_some_iff.mp hOnly⟩, ?_⟩
    rintro rfl
    exact eq_of_beq hAlike
  · rintro ⟨⟨run, hOnly⟩, hAlike⟩
    refine ⟨?_, ?_⟩
    · rw [LineRun.eval_onlyIn_eq_some_iff.mpr hOnly]
      rfl
    · cases policy with
      | ignore => rfl
      | strict => exact beq_iff_eq.mpr (hAlike rfl)

/- Lines that join a line join each line that joins it as well. -/
theorem joins_congr
    (hOther : Joins lines tokens scope policy line other)
    (third : Nat) :
    Joins lines tokens scope policy other third ↔
      Joins lines tokens scope policy line third := by
  constructor
  · intro hThird
    exact
      ⟨hThird.only,
        fun hStrict =>
          (hThird.alike hStrict).trans (hOther.alike hStrict)⟩
  · intro hThird
    exact
      ⟨hThird.only,
        fun hStrict =>
          (hThird.alike hStrict).trans (hOther.alike hStrict).symm⟩

namespace LineGroup

variable {otherTop otherBottom : Nat}

/- Lines that follow one another and join the line are in its group. -/
theorem mem_of_joins
    (hGroup : LineGroup lines tokens scope policy line top bottom)
    {start stop : Nat}
    (hStart : start ≤ line)
    (hStop : line ≤ stop)
    (hInside : stop < lines.size)
    (hJoins :
      ∀ {l : Nat},
        start ≤ l → l ≤ stop → Joins lines tokens scope policy line l) :
    top ≤ start ∧ stop ≤ bottom := by
  have hTop := hGroup.top_le
  have hBottom := hGroup.le_bottom
  constructor
  · apply Nat.le_of_not_lt
    intro hLt
    have hAbove : top - 1 + 1 = top := by omega
    exact hGroup.above hAbove (hJoins (by omega) (by omega))
  · apply Nat.le_of_not_lt
    intro hLt
    exact hGroup.below (by omega) (hJoins (by omega) (by omega))

/- A line has one group. -/
theorem unique
    (hGroup : LineGroup lines tokens scope policy line top bottom)
    (hOther :
      LineGroup lines tokens scope policy line otherTop otherBottom) :
    otherTop = top ∧ otherBottom = bottom := by
  have hIn :=
    hGroup.mem_of_joins hOther.top_le hOther.le_bottom
      hOther.bottom_lt hOther.joins
  have hOver :=
    hOther.mem_of_joins hGroup.top_le hGroup.le_bottom
      hGroup.bottom_lt hGroup.joins
  exact
    ⟨Nat.le_antisymm hOver.1 hIn.1, Nat.le_antisymm hIn.2 hOver.2⟩

/- The group of a line is that of each of its lines. -/
theorem of_mem
    (hGroup : LineGroup lines tokens scope policy line top bottom)
    (hFrom : top ≤ other)
    (hTo : other ≤ bottom) :
    LineGroup lines tokens scope policy other top bottom :=
  have hSame := joins_congr (hGroup.joins hFrom hTo)
  { top_le := hFrom
    le_bottom := hTo
    bottom_lt := hGroup.bottom_lt
    joins := fun hTop hBottom =>
      (hSame _).mpr (hGroup.joins hTop hBottom)
    above := fun hAbove hJoins =>
      hGroup.above hAbove ((hSame _).mp hJoins)
    below := fun hBelow hJoins =>
      hGroup.below hBelow ((hSame _).mp hJoins) }

/- Two groups are the same or have no line in common. -/
theorem eq_or_apart
    (hGroup : LineGroup lines tokens scope policy line top bottom)
    (hOther :
      LineGroup lines tokens scope policy other otherTop otherBottom) :
    (otherTop = top ∧ otherBottom = bottom) ∨
      otherBottom < top ∨ bottom < otherTop := by
  by_cases hApart : otherBottom < top ∨ bottom < otherTop
  · exact Or.inr hApart
  · -- The lower one of the two tops is a line of both groups.
    have hTop := hGroup.top_le
    have hBottom := hGroup.le_bottom
    have hOtherTop := hOther.top_le
    have hOtherBottom := hOther.le_bottom
    left
    rcases Nat.le_total top otherTop with hLe | hLe
    · exact
        unique (hGroup.of_mem hLe (by omega))
          (hOther.of_mem (Nat.le_refl _) (by omega))
    · exact
        unique (hGroup.of_mem (Nat.le_refl _) (by omega))
          (hOther.of_mem hLe (by omega))

end LineGroup

namespace CoversGroup

variable {span otherSpan : CommentSpan}

/- One span covers the group of a line. -/
theorem unique
    (hSpan : CoversGroup lines tokens scope policy line span)
    (hOther : CoversGroup lines tokens scope policy line otherSpan) :
    otherSpan = span := by
  rcases span with ⟨startLine, startColumn, stopLine, stopColumn⟩
  rcases otherSpan with ⟨_, otherStart, _, otherStop⟩
  rcases hSpan with ⟨hGroup, ⟨first, hFirst, hStart⟩, last, hLast, hStop⟩
  rcases hOther with
    ⟨hOtherGroup, ⟨otherFirst, hOtherFirst, hOtherStart⟩, otherLast,
      hOtherLast, hOtherStop⟩
  dsimp only at *
  rcases hGroup.unique hOtherGroup with ⟨rfl, rfl⟩
  rw [hStart, hStop, hOtherStart, hOtherStop,
    hFirst.unique hOtherFirst, hLast.unique hOtherLast]

/- The span of a line of the group is the same. -/
theorem eq_of_mem
    (hSpan : CoversGroup lines tokens scope policy line span)
    (hOther : CoversGroup lines tokens scope policy other otherSpan)
    (hMem : span.startLine ≤ other ∧ other ≤ span.stopLine) :
    otherSpan = span :=
  unique ⟨hSpan.group.of_mem hMem.1 hMem.2, hSpan.start, hSpan.stop⟩
    hOther

/- The span of any other line has no line in common with it. -/
theorem apart_of_not_mem
    (hSpan : CoversGroup lines tokens scope policy line span)
    (hOther : CoversGroup lines tokens scope policy other otherSpan)
    (hNot : ¬(span.startLine ≤ other ∧ other ≤ span.stopLine)) :
    otherSpan.stopLine < span.startLine ∨
      span.stopLine < otherSpan.startLine := by
  rcases hSpan.group.eq_or_apart hOther.group with
    ⟨hStart, hStop⟩ | hApart
  · rw [← hStart, ← hStop] at hNot
    exact absurd ⟨hOther.group.top_le, hOther.group.le_bottom⟩ hNot
  · exact hApart

end CoversGroup

------------------------------------------------------------
-- Merging a Group
------------------------------------------------------------

/-
  Merging down comes to the last line that may be merged, and each
  line on the way may be merged.  The induction is on the number of
  lines below, and moves the line that was reached.
-/
theorem exists_of_mergeDown
    {text : Bytes}
    (remaining : Nat) :
    ∀ {line : Nat} {run : LineRun},
      (LineRun.onlyIn lines scope line).eval tokens =
          some (run, tokens line) →
        ∃ bottom last,
          line ≤ bottom ∧
            bottom ≤ line + remaining ∧
            (∀ l, line < l → l ≤ bottom →
              Merges lines tokens scope policy text l) ∧
            (bottom < line + remaining →
              ¬Merges lines tokens scope policy text (bottom + 1)) ∧
            (LineRun.onlyIn lines scope bottom).eval tokens =
              some (last, tokens bottom) ∧
            (mergeDown lines scope policy text remaining (line + 1)
                (line, run.stopColumn (tokens line))).eval tokens =
              (bottom, last.stopColumn (tokens bottom)) := by
  induction remaining with
  | zero =>
      intro line run hRun
      exact
        ⟨line, run, Nat.le_refl line, Nat.le_refl line,
          fun l hFrom hTo => absurd hTo (Nat.not_le_of_lt hFrom),
          fun hLt => absurd hLt (Nat.lt_irrefl line), hRun, rfl⟩
  | succ remaining ih =>
      intro line run hRun
      by_cases hMerges : Merges lines tokens scope policy text (line + 1)
      · rcases Option.isSome_iff_exists.mp hMerges.1 with
          ⟨⟨next, ts⟩, hNext⟩
        rcases LineRun.maximal_of_onlyIn hNext with ⟨rfl, _⟩
        rcases ih hNext with
          ⟨bottom, last, hFrom, hTo, hAll, hEnd, hLast, hReached⟩
        refine
          ⟨bottom, last, by omega, by omega, ?_,
            fun hLt => hEnd (by omega), hLast, ?_⟩
        · intro l hAfter hBottom
          rcases Nat.lt_or_eq_of_le (Nat.succ_le_of_lt hAfter) with
            hLater | rfl
          · exact hAll l hLater hBottom
          · exact hMerges
        · rw [mergeDown, TokenQuery.eval_bind, hNext]
          dsimp only
          rw [if_pos hMerges.2]
          exact hReached
      · refine
          ⟨line, run, Nat.le_refl line, Nat.le_add_right line _,
            fun l hFrom hTo => absurd hTo (Nat.not_le_of_lt hFrom),
            fun _ => hMerges, hRun, ?_⟩
        rw [mergeDown, TokenQuery.eval_bind]
        cases hOnly : (LineRun.onlyIn lines scope (line + 1)).eval tokens with
        | none => rfl
        | some own =>
            dsimp only
            rw [if_neg fun hAlike => hMerges ⟨by rw [hOnly]; rfl, hAlike⟩]
            rfl

/-
  Merging up does so as well.  Where nothing is merged, the line
  in hand is the last one.
-/
theorem exists_top_of_mergeUp
    {text : Bytes}
    {run : LineRun}
    (hRun :
      (LineRun.onlyIn lines scope line).eval tokens =
        some (run, tokens line)) :
    ∃ top first,
      top ≤ line ∧
        (∀ l, top ≤ l → l < line →
          Merges lines tokens scope policy text l) ∧
        (∀ l, l + 1 = top → ¬Merges lines tokens scope policy text l) ∧
        (LineRun.onlyIn lines scope top).eval tokens =
          some (first, tokens top) ∧
        (mergeUp lines scope policy text line
            (line, run.startColumn (tokens line))).eval tokens =
          (top, first.startColumn (tokens top)) := by
  rcases
      @exists_of_mergeUp lines tokens scope policy text line
        (line, run.startColumn (tokens line)) with
    ⟨top, hAll, hEnd, ⟨rfl, hStays⟩ | ⟨hTop, first, hFirst, hMoves⟩⟩
  · exact ⟨top, run, Nat.le_refl top, hAll, hEnd, hRun, hStays⟩
  · exact
      ⟨top, first, Nat.le_of_lt hTop, hAll, hEnd, hFirst, hMoves⟩

/- A comment that is all of its line reaches over the group of it. -/
theorem coversGroup_ofLine
    {m : CommentMatch}
    {run : LineRun}
    (hLine : m.line < lines.size)
    (hOnly :
      LineRun.IsOnly (lines.getD m.line []) (tokens m.line) m.scope run)
    (hIn : LineRun.Within (tokens m.line) m.tokenIndex run)
    (policy : Indentation) :
    CoversGroup lines tokens m.scope policy m.line
      ((ofLine lines m (some policy)).eval tokens) := by
  have hOwn := LineRun.eval_onlyIn_eq_some_iff.mpr hOnly
  rcases
      @exists_top_of_mergeUp lines tokens m.scope policy m.line
        (lines.getD m.line []) run hOwn with
    ⟨top, first, hTop, hUp, hAbove, hFirst, hStart⟩
  rcases
      @exists_of_mergeDown lines tokens m.scope policy
        (lines.getD m.line []) (lines.size - (m.line + 1)) m.line run
        hOwn with
    ⟨bottom, last, hBottom, hSize, hDown, hBelow, hLast, hStop⟩
  have hGroup : LineGroup lines tokens m.scope policy m.line top bottom :=
    { top_le := hTop
      le_bottom := hBottom
      bottom_lt := by omega
      joins := by
        intro l hFrom hTo
        rcases Nat.lt_trichotomy l m.line with hBefore | rfl | hAfter
        · exact merges_iff_joins.mp (hUp l hFrom hBefore)
        · exact ⟨⟨run, hOnly⟩, fun _ => rfl⟩
        · exact merges_iff_joins.mp (hDown l hAfter hTo)
      above := fun hNext hJoins =>
        hAbove _ hNext (merges_iff_joins.mpr hJoins)
      below := fun hNext hJoins =>
        hBelow (by omega) (merges_iff_joins.mpr hJoins) }
  rw [eval_ofLine_of_own hOwn
    (LineRun.around_eq_of_within hOnly.maximal hIn), hStart, hStop]
  exact
    ⟨hGroup, ⟨first, LineRun.eval_onlyIn_eq_some_iff.mp hFirst, rfl⟩,
      last, LineRun.eval_onlyIn_eq_some_iff.mp hLast, rfl⟩

/-
  Any other line comment is the run of its token, and is found by
  each token of this run.
-/
theorem exists_run_of_not_only
    {m : CommentMatch}
    {token : Token}
    (hToken : (tokens m.line)[m.tokenIndex]? = some token)
    (hCarries : token.carries m.scope = true)
    (hOther :
      ∀ run,
        LineRun.IsOnly (lines.getD m.line []) (tokens m.line) m.scope
            run →
          ¬LineRun.Within (tokens m.line) m.tokenIndex run)
    (policy : Indentation) :
    ∃ run,
      LineRun.Maximal (tokens m.line) m.scope run ∧
        LineRun.Within (tokens m.line) m.tokenIndex run ∧
        ∀ index nearness,
          LineRun.Within (tokens m.line) index run →
            (ofLine lines ⟨m.line, index, m.scope, nearness⟩
                (some policy)).eval tokens =
              ⟨m.line, run.startColumn (tokens m.line), m.line,
                run.stopColumn (tokens m.line)⟩ := by
  have hMaximal := LineRun.maximal_around hToken hCarries
  have hIn :=
    LineRun.within_around (List.getElem?_eq_some_iff.mp hToken).1 m.scope
  refine ⟨_, hMaximal, hIn, ?_⟩
  intro index nearness hIndex
  apply
    @eval_ofLine_of_not_own lines tokens
      ⟨m.line, index, m.scope, nearness⟩ _ (some policy)
      (LineRun.around_eq_of_within hMaximal hIndex)
  intro _
  rw [Bool.eq_false_iff]
  intro hOwn
  have hOnly := LineRun.eval_onlyIn_of_any hMaximal hIn hOwn
  exact hOther _ (LineRun.eval_onlyIn_eq_some_iff.mp hOnly) hIn

end CommentSpan

------------------------------------------------------------
-- Line Comments
------------------------------------------------------------

/-
  For every grammar and document, however much of it is tokenized
  before each question, for every token with the scope of a line
  comment and both policies:

  If the token is in the comment of a line that holds nothing else,
  the comment goes from the start of the first line of the group to
  the stop of the last one.  It is the same one for each token of
  the comments of these lines, and that of a token of any other such
  line has no line in common with it.

  Otherwise the comment is the run of the token, and the same one
  for each token of this run.
-/
theorem TokenizedDocument.ofMatch_line
    {grammar : Grammar}
    {document : Document}
    {maxLength : Nat}
    {m : CommentMatch}
    {token : Token}
    (hLine : m.line < (create grammar document maxLength).lines.size)
    (hToken :
      ((create grammar document maxLength).tokensAt
          m.line)[m.tokenIndex]? =
        some token)
    (hCarries : token.carries m.scope = true)
    (hKind : m.scope.isLineComment = true)
    (policy : Indentation)
    (before : CommentMatch → Nat) :
    let fresh := create grammar document maxLength
    let lines := fresh.lines
    let tokens := fresh.tokensAt
    let span := fun found : CommentMatch =>
      (answer (CommentSpan.ofMatch lines found (some policy))
        (fresh.extend (before found))).1
    let only := fun (line : Nat) (run : LineRun) =>
      LineRun.IsOnly (lines.getD line []) (tokens line) m.scope run
    let within := fun (line index : Nat) (run : LineRun) =>
      LineRun.Within (tokens line) index run
    ((∃ run, only m.line run ∧ within m.line m.tokenIndex run) →
      CommentSpan.CoversGroup lines tokens m.scope policy m.line
          (span m) ∧
        ∀ line index run nearness,
          line < lines.size →
            only line run →
              within line index run →
                let other := span ⟨line, index, m.scope, nearness⟩
                let inside :=
                  (span m).startLine ≤ line ∧ line ≤ (span m).stopLine
                (inside → other = span m) ∧
                  (¬inside →
                    other.stopLine < (span m).startLine ∨
                      (span m).stopLine < other.startLine)) ∧
      ((∀ run, only m.line run → ¬within m.line m.tokenIndex run) →
        ∃ run,
          LineRun.Maximal (tokens m.line) m.scope run ∧
            within m.line m.tokenIndex run ∧
            ∀ index nearness,
              within m.line index run →
                span ⟨m.line, index, m.scope, nearness⟩ =
                  ⟨m.line, run.startColumn (tokens m.line), m.line,
                    run.stopColumn (tokens m.line)⟩) := by
  intro fresh lines tokens span only within
  have hSpan :
      ∀ found : CommentMatch,
        found.scope = m.scope →
          span found =
            (CommentSpan.ofLine lines found (some policy)).eval
              tokens := by
    intro found hScope
    rcases
        answer_extend (fresh_create grammar document maxLength)
          (CommentSpan.ofMatch lines found (some policy))
          (before found) with
      ⟨_, hAnswer⟩
    refine (congrArg Prod.fst hAnswer).trans ?_
    rw [CommentSpan.ofMatch, if_pos (by rw [hScope, hKind])]
  constructor
  · rintro ⟨run, hOnly, hIn⟩
    have hCovers :
        CommentSpan.CoversGroup lines tokens m.scope policy m.line
          (span m) := by
      rw [hSpan m rfl]
      exact CommentSpan.coversGroup_ofLine hLine hOnly hIn policy
    refine ⟨hCovers, ?_⟩
    intro line index own nearness hLines hOwn hOwnIn other inside
    have hOther :
        CommentSpan.CoversGroup lines tokens m.scope policy line
          other := by
      rw [show other = _ from hSpan _ rfl]
      exact
        @CommentSpan.coversGroup_ofLine lines tokens
          ⟨line, index, m.scope, nearness⟩ own hLines hOwn hOwnIn
          policy
    exact ⟨hCovers.eq_of_mem hOther, hCovers.apart_of_not_mem hOther⟩
  · intro hOther
    rcases
        CommentSpan.exists_run_of_not_only hToken hCarries hOther
          policy with
      ⟨run, hMaximal, hIn, hEnds⟩
    refine ⟨run, hMaximal, hIn, ?_⟩
    intro index nearness hIndex
    exact
      (hSpan ⟨m.line, index, m.scope, nearness⟩ rfl).trans
        (hEnds index nearness hIndex)

/-
  Two notes that are indented alike, and one behind other text.
  From each of the first two both are found, and the third one is
  a run of its own.
-/
theorem TokenizedDocument.ofMatch_line_notes :
    let document : Document :=
      ⟨utf8 "file:///a", utf8 "notes", 1, utf8 "\t# a\n\t# b \nx # c"⟩
    let fresh := create Grammar.notes document 0
    let scope := utf8 "comment.line.number-sign"
    let span := fun found : CommentMatch =>
      (answer (CommentSpan.ofMatch fresh.lines found (some .strict))
        (fresh.extend found.line)).1
    span ⟨1, 1, scope, .exact⟩ = ⟨0, 1, 1, 5⟩ ∧
      span ⟨0, 1, scope, .below⟩ = span ⟨1, 1, scope, .exact⟩ ∧
      ∃ run,
        LineRun.Within (fresh.tokensAt 2) 1 run ∧
          span ⟨2, 1, scope, .exact⟩ =
            ⟨2, run.startColumn (fresh.tokensAt 2), 2,
              run.stopColumn (fresh.tokensAt 2)⟩ := by
  intro document fresh scope span
  have hComputed :
      (extendWithin? 9 fresh.lines.size fresh).map
          (fun d =>
            (d.tokensIn 1, d.tokensIn 2,
              [0, 1, 2].map (fun line =>
                (LineRun.only? (fresh.lines.getD line [])
                  (d.tokensIn line) scope)),
              (CommentSpan.ofMatch fresh.lines ⟨1, 1, scope, .exact⟩
                (some .strict)).eval d.tokensIn)) =
        some
          ([⟨0, 1, [utf8 "source.notes"]⟩,
              ⟨1, 5, [utf8 "source.notes", scope]⟩],
            [⟨0, 2, [utf8 "source.notes"]⟩,
              ⟨2, 5, [utf8 "source.notes", scope]⟩],
            [some ⟨1, 1⟩, some ⟨1, 1⟩, none], ⟨0, 1, 1, 5⟩) := by
    decide +kernel
  rcases Option.map_eq_some_iff.mp hComputed with
    ⟨final, hExtend, hAll⟩
  have hFresh := fresh_create Grammar.notes document 0
  have hTokens : fresh.tokensAt = final.tokensIn := by
    rw [← extend_of_extendWithin? _ hExtend]
    exact tokensAt_eq_tokensIn hFresh
  simp only [List.map_cons, List.map_nil, Prod.mk.injEq, ← hTokens,
    List.cons.injEq, and_true] at hAll
  rcases hAll with ⟨hSecond, hThird, ⟨hOnly0, hOnly1, hOnly2⟩, hValue⟩
  have hAbove := (LineRun.only?_eq_some_iff (by decide)).mp hOnly0
  have hHere := (LineRun.only?_eq_some_iff (by decide)).mp hOnly1
  have hSpan : span ⟨1, 1, scope, .exact⟩ = ⟨0, 1, 1, 5⟩ := by
    rw [← hValue, hTokens]
    exact answer_of_extendWithin? hFresh hExtend _ _
  have hToken :
      (fresh.tokensAt 1)[1]? =
        some ⟨1, 5, [utf8 "source.notes", scope]⟩ := by
    rw [hSecond]
    rfl
  have hTrailing :
      (fresh.tokensAt 2)[1]? =
        some ⟨2, 5, [utf8 "source.notes", scope]⟩ := by
    rw [hThird]
    rfl
  rcases hAbove.content with ⟨_, _, hInAbove⟩
  rcases hHere.content with ⟨_, _, hInHere⟩
  have hMerged :=
    (@ofMatch_line Grammar.notes document 0 ⟨1, 1, scope, .exact⟩ _
      (by decide) hToken (by decide) (by decide) .strict
      (fun found => found.line)).1
  have hAlone :=
    (@ofMatch_line Grammar.notes document 0 ⟨2, 1, scope, .exact⟩ _
      (by decide) hTrailing (by decide) (by decide) .strict
      (fun found => found.line)).2
  rcases hMerged ⟨_, hHere, LineRun.within_first hInHere⟩ with
    ⟨_, hSame⟩
  refine ⟨hSpan, ?_, ?_⟩
  · have hFirst :=
      (hSame 0 1 _ .below (by decide) hAbove
        (LineRun.within_first hInAbove)).1
    -- Nothing is evaluated where both sides are written out alike.
    dsimp only [span, fresh] at hFirst hSpan ⊢
    rw [hSpan] at hFirst ⊢
    exact hFirst (by decide)
  · have hNot :
        ∀ run,
          ¬LineRun.IsOnly (fresh.lines.getD 2 []) (fresh.tokensAt 2)
            scope run := by
      intro run hOnly
      have hSome := (LineRun.only?_eq_some_iff (by decide)).mpr hOnly
      rw [hOnly2] at hSome
      cases hSome
    rcases hAlone (fun run hOnly _ => hNot run hOnly) with
      ⟨run, _, hIn, hRun⟩
    exact ⟨run, hIn, hRun 1 .exact hIn⟩

end Marginalia

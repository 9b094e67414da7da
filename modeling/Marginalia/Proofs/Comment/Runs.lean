import Mathlib.Data.List.TakeWhile
import Marginalia.Proofs.Comment.Spans

/-
  This file proves that a line comment has the same extent if it
  is found by the first token of that extent.

  A run of tokens with a scope is known by any of its indices.
  Merging goes up to the last line that may be merged, and from
  there it goes down over the same lines, because lines that may
  be merged with one of them may be merged with all.

  Key definitions include:
    * `LineRun.Maximal`
    * `CommentSpan.Merges`
  The main statements are:
    * `LineRun.around_eq_of_within`
    * `CommentSpan.eval_mergeDown_of_merges`
    * `CommentSpan.exists_first_of_ofLine`
-/

namespace Marginalia

------------------------------------------------------------
-- Runs
------------------------------------------------------------

namespace LineRun

/-
  The tokens of the run all carry the scope, and those next to it
  do not.
-/
structure Maximal
    (tokens : List Token)
    (scope : Scope)
    (run : LineRun) : Prop where
  carries :
    ∀ {k : Nat} {t : Token},
      run.first ≤ k →
        k ≤ run.last → tokens[k]? = some t → t.carries scope = true
  before :
    ∀ {k : Nat} {t : Token},
      k + 1 = run.first → tokens[k]? = some t → t.carries scope = false
  after :
    ∀ {t : Token},
      tokens[run.last + 1]? = some t → t.carries scope = false

variable {tokens : List Token}
variable {scope : Scope}
variable {run : LineRun}

/- What is taken from a list while it holds. -/
theorem holds_of_lt_takeWhile
    {α : Type}
    {p : α → Bool}
    {l : List α}
    {k : Nat}
    {a : α}
    (hLt : k < (l.takeWhile p).length)
    (hItem : l[k]? = some a) :
    p a = true := by
  rw [← List.takeWhile_append_dropWhile (p := p) (l := l),
    List.getElem?_append_left hLt] at hItem
  exact List.mem_takeWhile_imp (List.mem_of_getElem? hItem)

/- The item after what is taken from a list while it holds. -/
theorem fails_of_eq_takeWhile
    {α : Type}
    {p : α → Bool}
    {l : List α}
    {a : α}
    (hItem : l[(l.takeWhile p).length]? = some a) :
    p a = false := by
  have hNext : (l.dropWhile p).head? = some a := by
    rw [List.head?_eq_getElem?]
    conv at hItem =>
      lhs
      rw [← List.takeWhile_append_dropWhile (p := p) (l := l)]
    rw [List.getElem?_append_right (by simp)] at hItem
    simpa using hItem
  have hNot := List.head?_dropWhile_not p l
  rw [hNext] at hNot
  simpa using hNot

/- The run around a token that carries the scope is maximal. -/
theorem maximal_around
    {index : Nat}
    {token : Token}
    (hToken : tokens[index]? = some token)
    (hCarries : token.carries scope = true) :
    Maximal tokens scope (around tokens index scope) := by
  have hIndex := (List.getElem?_eq_some_iff.mp hToken).1
  -- A token before this one is found in the reversed front.
  have hFront :
      ∀ {k : Nat},
        k < index →
          ((tokens.take index).reverse)[index - 1 - k]? = tokens[k]? := by
    intro k hLt
    have hLength : (tokens.take index).length = index := by
      rw [List.length_take, Nat.min_eq_left (Nat.le_of_lt hIndex)]
    rw [List.getElem?_reverse (by omega), List.getElem?_take_of_lt
      (by omega), hLength]
    congr 1
    omega
  have hBack :
      ∀ {k : Nat},
        (tokens.drop (index + 1))[k]? = tokens[index + 1 + k]? := by
    intro k
    rw [List.getElem?_drop]
  constructor
  case carries =>
    intro k t hFirst hLast hItem
    change index - _ ≤ k at hFirst
    change k ≤ index + _ at hLast
    rcases Nat.lt_trichotomy k index with hLt | rfl | hGt
    · rw [← hFront hLt] at hItem
      refine
        holds_of_lt_takeWhile (p := fun t : Token => t.carries scope) ?_
          hItem
      omega
    · cases hToken.symm.trans hItem
      exact hCarries
    · have hSum : k = index + 1 + (k - (index + 1)) := by omega
      rw [hSum, ← hBack] at hItem
      refine
        holds_of_lt_takeWhile (p := fun t : Token => t.carries scope) ?_
          hItem
      omega
  case before =>
    intro k t hFirst hItem
    change k + 1 = index - _ at hFirst
    rw [← hFront (by omega)] at hItem
    refine
      @fails_of_eq_takeWhile _ (fun t : Token => t.carries scope)
        (tokens.take index).reverse t ?_
    rw [← hItem]
    congr 1
    omega
  case after =>
    intro t hItem
    change tokens[index + _ + 1]? = some t at hItem
    rw [Nat.add_right_comm, ← hBack] at hItem
    exact
      fails_of_eq_takeWhile (p := fun t : Token => t.carries scope) hItem

/- Two maximal runs that hold one index are the same. -/
theorem eq_of_maximal
    {other : LineRun}
    {index : Nat}
    (hRun : Maximal tokens scope run)
    (hOther : Maximal tokens scope other)
    (hIn : Within tokens index run)
    (hInOther : Within tokens index other) :
    run = other := by
  have hFirst :
      ∀ {a b : LineRun},
        Maximal tokens scope a →
          Maximal tokens scope b →
            Within tokens index a →
              Within tokens index b → ¬a.first < b.first := by
    intro a b hA hB hInA hInB hLt
    have hBound : b.first - 1 < tokens.length := by
      have hB1 := hInB.first_le
      have hB2 := hInB.le_last
      have hB3 := hInB.last_lt
      omega
    have hItem := List.getElem?_eq_getElem hBound
    have hNo := hB.before (by omega) hItem
    have hLast := hInA.le_last
    have hStart := hInB.first_le
    rw [hA.carries (by omega) (by omega) hItem] at hNo
    cases hNo
  have hLast :
      ∀ {a b : LineRun},
        Maximal tokens scope a →
          Maximal tokens scope b →
            Within tokens index a →
              Within tokens index b → ¬a.last < b.last := by
    intro a b hA hB hInA hInB hLt
    have hBound : a.last + 1 < tokens.length := by
      have hB3 := hInB.last_lt
      omega
    have hItem := List.getElem?_eq_getElem hBound
    have hNo := hA.after hItem
    have hStart := hInB.first_le
    have hStop := hInA.le_last
    rw [hB.carries (by omega) (by omega) hItem] at hNo
    cases hNo
  have hFirst1 := hFirst hRun hOther hIn hInOther
  have hFirst2 := hFirst hOther hRun hInOther hIn
  have hLast1 := hLast hRun hOther hIn hInOther
  have hLast2 := hLast hOther hRun hInOther hIn
  cases run
  cases other
  rw [LineRun.mk.injEq]
  dsimp only at hFirst1 hFirst2 hLast1 hLast2
  omega

/- A maximal run is the run around each of its tokens. -/
theorem around_eq_of_within
    {index : Nat}
    (hRun : Maximal tokens scope run)
    (hIn : Within tokens index run) :
    around tokens index scope = run := by
  have hIndex : index < tokens.length := by
    have hLast := hIn.le_last
    have hLength := hIn.last_lt
    omega
  have hToken := List.getElem?_eq_getElem hIndex
  exact
    eq_of_maximal
      (maximal_around hToken (hRun.carries hIn.first_le hIn.le_last hToken))
      hRun (within_around hIndex scope) hIn

/- The first index of a run is one of its indices. -/
theorem within_first
    {index : Nat}
    (hIn : Within tokens index run) :
    Within tokens run.first run where
  first_le := Nat.le_refl _
  le_last := Nat.le_trans hIn.first_le hIn.le_last
  last_lt := hIn.last_lt

/- The run of a line that holds nothing else is maximal. -/
theorem maximal_of_onlyIn
    {lines : Array Bytes}
    {tokens : Nat → List Token}
    {line : Nat}
    {ts : List Token}
    (hOnly : (onlyIn lines scope line).eval tokens = some (run, ts)) :
    ts = tokens line ∧
      Maximal (tokens line) scope run ∧
        ∃ index, Within (tokens line) index run := by
  unfold onlyIn at hOnly
  dsimp only at hOnly
  split at hOnly
  · cases hOnly
  · simp only [TokenQuery.eval_bind, TokenQuery.eval_tokensOf,
      TokenQuery.eval_pure] at hOnly
    rcases Option.map_eq_some_iff.mp hOnly with ⟨other, hRun, hPair⟩
    cases hPair
    refine ⟨rfl, ?_⟩
    unfold only? at hRun
    dsimp only at hRun
    split at hRun
    · cases hRun
    · next token hToken =>
        split at hRun
        · next hCarries =>
            split at hRun
            · cases hRun
              exact
                ⟨maximal_around hToken hCarries, _,
                  within_around (List.getElem?_eq_some_iff.mp hToken).1
                    scope⟩
            · cases hRun
        · cases hRun

/- A run that starts where the comment of its line does is all of it. -/
theorem eval_onlyIn_of_any
    {lines : Array Bytes}
    {tokens : Nat → List Token}
    {line index : Nat}
    (hMaximal : Maximal (tokens line) scope run)
    (hIn : Within (tokens line) index run)
    (hOwn :
      ((onlyIn lines scope line).eval tokens).any
          (fun own => own.1.first == run.first) =
        true) :
    (onlyIn lines scope line).eval tokens = some (run, tokens line) := by
  rw [Option.any_eq_true] at hOwn
  rcases hOwn with ⟨⟨own, ts⟩, hOnly, hSame⟩
  rcases maximal_of_onlyIn hOnly with ⟨rfl, hOwnMaximal, _, hOwnIn⟩
  have hRun : own = run := by
    refine eq_of_maximal hOwnMaximal hMaximal (within_first hOwnIn) ?_
    rw [eq_of_beq hSame]
    exact within_first hIn
  rw [hOnly, hRun]

end LineRun

------------------------------------------------------------
-- Merging
------------------------------------------------------------

namespace CommentSpan

variable {lines : Array Bytes}
variable {tokens : Nat → List Token}
variable {scope : Scope}
variable {policy : Indentation}
variable {text : Bytes}

/- The line holds nothing but the comment, and may be merged. -/
def Merges
    (lines : Array Bytes)
    (tokens : Nat → List Token)
    (scope : Scope)
    (policy : Indentation)
    (text : Bytes)
    (line : Nat) : Prop :=
  ((LineRun.onlyIn lines scope line).eval tokens).isSome = true ∧
    compatible policy (lines.getD line []) text = true

/- A line that may be merged with one of two lines may with the other. -/
theorem compatible_congr
    {other : Bytes}
    (hLines : compatible policy other text = true)
    (third : Bytes) :
    compatible policy third other = compatible policy third text := by
  cases policy with
  | ignore => rfl
  | strict =>
      unfold compatible at hLines ⊢
      dsimp only at hLines ⊢
      rw [eq_of_beq hLines]

/- A line may be merged with itself. -/
theorem compatible_self
    (policy : Indentation)
    (text : Bytes) :
    compatible policy text text = true := by
  cases policy with
  | ignore => rfl
  | strict => exact beq_self_eq_true _

/- Merging up stays where the next line may not be merged. -/
theorem eval_mergeUp_of_not_merges
    {line : Nat}
    (hEnd :
      ∀ above, above + 1 = line →
        ¬Merges lines tokens scope policy text above)
    (reached : Nat × Nat) :
    (mergeUp lines scope policy text line reached).eval tokens =
      reached := by
  cases line with
  | zero => rfl
  | succ line =>
      have hNot := hEnd line rfl
      unfold mergeUp
      rw [TokenQuery.eval_bind]
      cases hOnly : (LineRun.onlyIn lines scope line).eval tokens with
      | none => rfl
      | some own =>
          have hOther :
              ¬compatible policy (lines.getD line []) text = true := by
            intro hCompatible
            exact hNot ⟨by rw [hOnly]; rfl, hCompatible⟩
          dsimp only
          rw [if_neg hOther]
          rfl

/-
  Merging up comes to the last line that may be merged, and each
  line on the way may be merged.
-/
theorem exists_of_mergeUp
    (line : Nat) :
    ∀ reached : Nat × Nat,
      ∃ top,
        (∀ l, top ≤ l → l < line →
            Merges lines tokens scope policy text l) ∧
          (∀ above, above + 1 = top →
              ¬Merges lines tokens scope policy text above) ∧
            ((top = line ∧
                (mergeUp lines scope policy text line reached).eval
                    tokens =
                  reached) ∨
              (top < line ∧
                ∃ run,
                  (LineRun.onlyIn lines scope top).eval tokens =
                      some (run, tokens top) ∧
                    (mergeUp lines scope policy text line reached).eval
                        tokens =
                      (top, run.startColumn (tokens top)))) := by
  induction line with
  | zero =>
      intro reached
      refine ⟨0, ?_, ?_, Or.inl ⟨rfl, rfl⟩⟩
      · intro l _ hTo
        exact absurd hTo (Nat.not_lt_zero l)
      · intro above hAbove
        exact absurd hAbove (Nat.succ_ne_zero above)
  | succ line ih =>
      intro reached
      by_cases hMerges : Merges lines tokens scope policy text line
      · rcases Option.isSome_iff_exists.mp hMerges.1 with
          ⟨⟨run, ts⟩, hOnly⟩
        rcases LineRun.maximal_of_onlyIn hOnly with ⟨rfl, _⟩
        have hNext :
            (mergeUp lines scope policy text (line + 1) reached).eval
                tokens =
              (mergeUp lines scope policy text line
                (line, run.startColumn (tokens line))).eval tokens := by
          rw [mergeUp, TokenQuery.eval_bind, hOnly]
          dsimp only
          rw [if_pos hMerges.2]
        rcases ih (line, run.startColumn (tokens line)) with
          ⟨top, hAll, hEnd, hReached⟩
        refine ⟨top, ?_, hEnd, Or.inr ?_⟩
        · intro l hFrom hTo
          rcases Nat.lt_succ_iff_lt_or_eq.mp hTo with hBefore | rfl
          · exact hAll l hFrom hBefore
          · exact hMerges
        · rw [hNext]
          rcases hReached with ⟨rfl, hHere⟩ | ⟨hLt, other, hOther, hThere⟩
          · exact ⟨Nat.lt_succ_self top, run, hOnly, hHere⟩
          · exact ⟨Nat.lt_succ_of_lt hLt, other, hOther, hThere⟩
      · have hEnd :
            ∀ above, above + 1 = line + 1 →
              ¬Merges lines tokens scope policy text above := by
          intro above hAbove
          rw [Nat.succ.inj hAbove]
          exact hMerges
        refine
          ⟨line + 1, ?_, hEnd,
            Or.inl ⟨rfl, eval_mergeUp_of_not_merges hEnd reached⟩⟩
        intro l hFrom hTo
        omega

/- Merging down depends on how the text may be merged only. -/
theorem eval_mergeDown_congr
    {other : Bytes}
    (hSame :
      ∀ third : Bytes,
        compatible policy third other = compatible policy third text)
    (remaining : Nat) :
    ∀ (line : Nat) (reached : Nat × Nat),
      (mergeDown lines scope policy other remaining line reached).eval
          tokens =
        (mergeDown lines scope policy text remaining line reached).eval
          tokens := by
  induction remaining with
  | zero =>
      intro line reached
      rfl
  | succ remaining ih =>
      intro line reached
      unfold mergeDown
      rw [TokenQuery.eval_bind, TokenQuery.eval_bind]
      cases (LineRun.onlyIn lines scope line).eval tokens with
      | none => rfl
      | some own =>
          dsimp only
          rw [hSame]
          split
          · exact ih _ _
          · rfl

/- Merging down passes all lines that may be merged. -/
theorem eval_mergeDown_of_merges
    {run : LineRun}
    (remaining passed : Nat) :
    ∀ {line : Nat} (reached : Nat × Nat),
      (∀ l, line ≤ l → l ≤ line + passed →
          Merges lines tokens scope policy text l) →
        (LineRun.onlyIn lines scope (line + passed)).eval tokens =
            some (run, tokens (line + passed)) →
          (mergeDown lines scope policy text (passed + 1 + remaining)
              line reached).eval tokens =
            (mergeDown lines scope policy text remaining
              (line + passed + 1)
              (line + passed,
                run.stopColumn (tokens (line + passed)))).eval
              tokens := by
  induction passed with
  | zero =>
      intro line reached hAll hOnly
      have hMerges := hAll line (Nat.le_refl _) (Nat.le_refl _)
      rw [Nat.zero_add, Nat.add_comm 1 remaining, mergeDown,
        TokenQuery.eval_bind]
      rw [Nat.add_zero] at hOnly
      rw [hOnly]
      dsimp only
      rw [if_pos hMerges.2]
      rfl
  | succ passed ih =>
      intro line reached hAll hOnly
      have hMerges := hAll line (Nat.le_refl _) (Nat.le_add_right _ _)
      rcases Option.isSome_iff_exists.mp hMerges.1 with
        ⟨⟨first, ts⟩, hFirst⟩
      have hCount :
          passed + 1 + 1 + remaining = passed + 1 + remaining + 1 := by
        omega
      have hShift : line + (passed + 1) = line + 1 + passed := by
        omega
      rw [hCount, mergeDown, TokenQuery.eval_bind, hFirst]
      dsimp only
      rw [if_pos hMerges.2]
      rw [hShift] at hOnly ⊢
      exact
        ih _ (fun l hFrom hTo => hAll l (by omega) (by omega)) hOnly

------------------------------------------------------------
-- Line Comments
------------------------------------------------------------

/-
  The extent of a line comment depends on the run around its
  token, not on the token.
-/
theorem ofLine_congr
    {m other : CommentMatch}
    (hLine : other.line = m.line)
    (hScope : other.scope = m.scope)
    (hAround :
      LineRun.around (tokens m.line) other.tokenIndex m.scope =
        LineRun.around (tokens m.line) m.tokenIndex m.scope)
    (policy? : Option Indentation) :
    (ofLine lines other policy?).eval tokens =
      (ofLine lines m policy?).eval tokens := by
  unfold ofLine
  simp only [TokenQuery.eval_bind, TokenQuery.eval_tokensOf, hLine,
    hScope, hAround]
  rfl

/- A line that holds nothing but the run is merged with others. -/
theorem eval_ofLine_of_own
    {m : CommentMatch}
    {run : LineRun}
    (hOwn :
      (LineRun.onlyIn lines m.scope m.line).eval tokens =
        some (run, tokens m.line))
    (hAround :
      LineRun.around (tokens m.line) m.tokenIndex m.scope = run)
    (policy : Indentation) :
    (ofLine lines m (some policy)).eval tokens =
      let start :=
        (mergeUp lines m.scope policy (lines.getD m.line []) m.line
          (m.line, run.startColumn (tokens m.line))).eval tokens
      let stop :=
        (mergeDown lines m.scope policy (lines.getD m.line [])
          (lines.size - (m.line + 1)) (m.line + 1)
          (m.line, run.stopColumn (tokens m.line))).eval tokens
      ⟨start.1, start.2, stop.1, stop.2⟩ := by
  unfold ofLine
  simp [TokenQuery.eval_bind, TokenQuery.eval_tokensOf, hOwn, hAround]

/- A line that holds something else is a comment of its own. -/
theorem eval_ofLine_of_not_own
    {m : CommentMatch}
    {run : LineRun}
    {policy? : Option Indentation}
    (hAround :
      LineRun.around (tokens m.line) m.tokenIndex m.scope = run)
    (hOwn :
      policy?.isSome = true →
        ((LineRun.onlyIn lines m.scope m.line).eval tokens).any
            (fun own => own.1.first == run.first) =
          false) :
    (ofLine lines m policy?).eval tokens =
      ⟨m.line, run.startColumn (tokens m.line), m.line,
        run.stopColumn (tokens m.line)⟩ := by
  unfold ofLine
  simp only [TokenQuery.eval_bind, TokenQuery.eval_tokensOf, hAround]
  cases policy? with
  | none => rfl
  | some policy =>
      rw [TokenQuery.eval_bind, if_neg (by simp [hOwn rfl])]
      rfl

/-
  A run whose line is merged with the lines up to a top one has
  the extent of the run of that line.
-/
theorem eval_ofLine_of_top
    {m : CommentMatch}
    {run first : LineRun}
    {policy : Indentation}
    {top : Nat}
    (hLine : m.line < lines.size)
    (hTop : top < m.line)
    (hOwn :
      (LineRun.onlyIn lines m.scope m.line).eval tokens =
        some (run, tokens m.line))
    (hAround :
      LineRun.around (tokens m.line) m.tokenIndex m.scope = run)
    (hFirst :
      (LineRun.onlyIn lines m.scope top).eval tokens =
        some (first, tokens top))
    (hUp :
      (mergeUp lines m.scope policy (lines.getD m.line []) m.line
          (m.line, run.startColumn (tokens m.line))).eval tokens =
        (top, first.startColumn (tokens top)))
    (hAll :
      ∀ l, top ≤ l → l < m.line →
        Merges lines tokens m.scope policy (lines.getD m.line []) l)
    (hEnd :
      ∀ above, above + 1 = top →
        ¬Merges lines tokens m.scope policy (lines.getD m.line [])
          above)
    (nearness : Nearness) :
    (ofLine lines ⟨top, first.first, m.scope, nearness⟩
        (some policy)).eval tokens =
      (ofLine lines m (some policy)).eval tokens := by
  rcases LineRun.maximal_of_onlyIn hFirst with ⟨_, hMaximal, _, hIn⟩
  have hAroundTop :=
    LineRun.around_eq_of_within hMaximal (LineRun.within_first hIn)
  have hSame :=
    compatible_congr (hAll top (Nat.le_refl top) hTop).2
  have hStays :
      (mergeUp lines m.scope policy (lines.getD top []) top
          (top, first.startColumn (tokens top))).eval tokens =
        (top, first.startColumn (tokens top)) := by
    apply eval_mergeUp_of_not_merges
    intro above hAbove hMerges
    refine hEnd above hAbove ⟨hMerges.1, ?_⟩
    rw [← hSame]
    exact hMerges.2
  have hDown :
      (mergeDown lines m.scope policy (lines.getD m.line [])
          (lines.size - (top + 1)) (top + 1)
          (top, first.stopColumn (tokens top))).eval tokens =
        (mergeDown lines m.scope policy (lines.getD m.line [])
          (lines.size - (m.line + 1)) (m.line + 1)
          (m.line, run.stopColumn (tokens m.line))).eval tokens := by
    have hLast : top + 1 + (m.line - (top + 1)) = m.line := by omega
    have hCount :
        lines.size - (top + 1) =
          m.line - (top + 1) + 1 + (lines.size - (m.line + 1)) := by
      omega
    have hPassed :=
      @eval_mergeDown_of_merges lines tokens m.scope policy
        (lines.getD m.line []) run (lines.size - (m.line + 1))
        (m.line - (top + 1)) (top + 1)
        (top, first.stopColumn (tokens top))
    rw [hLast] at hPassed
    rw [hCount]
    apply hPassed _ hOwn
    intro l hFrom hTo
    rcases Nat.lt_or_eq_of_le hTo with hBefore | rfl
    · exact hAll l (by omega) hBefore
    · exact ⟨by rw [hOwn]; rfl, compatible_self policy _⟩
  rw [eval_ofLine_of_own hOwn hAround, eval_ofLine_of_own hFirst hAroundTop]
  dsimp only
  rw [hStays, hUp, eval_mergeDown_congr hSame, hDown]

/-
  A line comment starts at a token with its scope, which no other
  such token comes before, and has the same extent if it is found
  by that token.
-/
theorem exists_first_of_ofLine
    {m : CommentMatch}
    {token : Token}
    (hLine : m.line < lines.size)
    (hToken : (tokens m.line)[m.tokenIndex]? = some token)
    (hCarries : token.carries m.scope = true)
    (policy? : Option Indentation) :
    ∃ span index first,
      (ofLine lines m policy?).eval tokens = span ∧
        (tokens span.startLine)[index]? = some first ∧
        first.start = span.startColumn ∧
        first.carries m.scope = true ∧
        (∀ {k : Nat} {t : Token},
          k + 1 = index →
            (tokens span.startLine)[k]? = some t →
              t.carries m.scope = false) ∧
        ∀ nearness,
          (ofLine lines ⟨span.startLine, index, m.scope, nearness⟩
              policy?).eval tokens =
            span := by
  have hMaximal := LineRun.maximal_around hToken hCarries
  have hIn :=
    LineRun.within_around (List.getElem?_eq_some_iff.mp hToken).1 m.scope
  generalize hAround :
    LineRun.around (tokens m.line) m.tokenIndex m.scope = run
      at hMaximal hIn
  rcases LineRun.exists_startColumn hIn with ⟨first, hFirst, hColumn⟩
  have hFirstCarries :=
    hMaximal.carries (Nat.le_refl _)
      (LineRun.within_first hIn).le_last hFirst
  -- From a span that starts with the run itself nothing changes.
  have hHere :
      ∀ {stopLine stopColumn : Nat},
        (ofLine lines m policy?).eval tokens =
            ⟨m.line, run.startColumn (tokens m.line), stopLine,
              stopColumn⟩ →
          ∀ nearness,
            (ofLine lines ⟨m.line, run.first, m.scope, nearness⟩
                policy?).eval tokens =
              ⟨m.line, run.startColumn (tokens m.line), stopLine,
                stopColumn⟩ := by
    intro stopLine stopColumn hSpan nearness
    rw [← hSpan]
    refine
      @ofLine_congr lines tokens m
        ⟨m.line, run.first, m.scope, nearness⟩ rfl rfl ?_ policy?
    rw [hAround]
    exact
      LineRun.around_eq_of_within hMaximal (LineRun.within_first hIn)
  by_cases hOwn :
      policy?.isSome = true →
        ((LineRun.onlyIn lines m.scope m.line).eval tokens).any
            (fun own => own.1.first == run.first) =
          false
  · have hSpan := eval_ofLine_of_not_own hAround hOwn
    exact
      ⟨_, run.first, first, hSpan, hFirst, hColumn.symm, hFirstCarries,
        hMaximal.before, hHere hSpan⟩
  · rw [Classical.not_imp, Bool.not_eq_false] at hOwn
    rcases Option.isSome_iff_exists.mp hOwn.1 with ⟨policy, rfl⟩
    have hOnly := LineRun.eval_onlyIn_of_any hMaximal hIn hOwn.2
    have hSpan := eval_ofLine_of_own hOnly hAround policy
    dsimp only at hSpan
    rcases
        @exists_of_mergeUp lines tokens m.scope policy
          (lines.getD m.line []) m.line
          (m.line, run.startColumn (tokens m.line)) with
      ⟨top, hAll, hEnd, ⟨rfl, hUp⟩ | ⟨hTop, other, hOther, hUp⟩⟩
    · rw [hUp] at hSpan
      exact
        ⟨_, run.first, first, hSpan, hFirst, hColumn.symm,
          hFirstCarries, hMaximal.before, hHere hSpan⟩
    · rcases LineRun.maximal_of_onlyIn hOther with
        ⟨_, hOtherMaximal, _, hOtherIn⟩
      rcases LineRun.exists_startColumn hOtherIn with
        ⟨t, hTopToken, hTopColumn⟩
      have hMoved :=
        eval_ofLine_of_top hLine hTop hOnly hAround hOther hUp hAll hEnd
      rw [hUp] at hSpan
      rw [hSpan] at hMoved
      exact
        ⟨_, other.first, t, hSpan, hTopToken, hTopColumn.symm,
          hOtherMaximal.carries (Nat.le_refl _)
            (LineRun.within_first hOtherIn).le_last hTopToken,
          hOtherMaximal.before, hMoved⟩

end CommentSpan

end Marginalia

import Marginalia.Proofs.Token.Lazy
import Marginalia.Proofs.Token.Termination

/-
  This file tokenizes documents with a bound on the number of
  steps that a line may take.  Within a bound everything is a
  structural recursion and can be evaluated, and what comes to
  an end within a bound is what comes of it without one.

  Key definitions include:
    * `LineState.runWithin?`
    * `tokenizeLineWithin?`
    * `TokenizedDocument.extendWithin?`
  The main statements are:
    * `LineState.run?_of_runWithin?`
    * `TokenizedDocument.extend_of_extendWithin?`
    * `TokenizedDocument.tokensAt_of_extendWithin?`
    * `TokenizedDocument.answer_of_extendWithin?`
-/

namespace Marginalia

------------------------------------------------------------
-- Lines
------------------------------------------------------------

namespace LineState

/- Take at most `steps` steps to the end of a line. -/
def runWithin?
    (engine : Engine)
    (grammar : Grammar)
    (line : Array UInt8) : Nat → LineState → Option LineState
| 0, _ => none
| steps + 1, state =>
    match state.step engine grammar line with
    | .next next => runWithin? engine grammar line steps next
    | .done last => some last

/- A run that ends within a bound is a run. -/
theorem run?_of_runWithin?
    {engine : Engine}
    {grammar : Grammar}
    {line : Array UInt8}
    {last : LineState}
    (steps : Nat) :
    ∀ {state : LineState},
      runWithin? engine grammar line steps state = some last →
        state.run? engine grammar line = some last := by
  induction steps with
  | zero =>
      intro state hRun
      cases hRun
  | succ steps ih =>
      intro state hRun
      unfold runWithin? at hRun
      cases hStep : state.step engine grammar line with
      | next next =>
          rw [hStep] at hRun
          rw [run?_of_step_next hStep]
          exact ih hRun
      | done last =>
          rw [hStep] at hRun
          rw [run?_of_step_done hStep]
          exact hRun

end LineState

/-
  Cut a line into tokens with the engine of the grammar, in at
  most `steps` steps.
-/
def tokenizeLineWithin?
    (steps : Nat)
    (grammar : Grammar)
    (line : Bytes)
    (prior : RuleStack)
    (maxLength : Nat) : Option LineTokens :=
  let state := LineState.start grammar prior
  if 0 < maxLength ∧ maxLength < line.length then
    some (state.fill 0 line.length).result
  else
    (state.runWithin? grammar.engine.toEngine grammar line.toArray
      steps).map LineState.result

/- A line that ends within a bound is cut into the same tokens. -/
theorem tokenizeLine?_of_within?
    {steps : Nat}
    {grammar : Grammar}
    {line : Bytes}
    {prior : RuleStack}
    {maxLength : Nat}
    {result : LineTokens}
    (hLine :
      tokenizeLineWithin? steps grammar line prior maxLength =
        some result) :
    tokenizeLine? grammar.engine.toEngine grammar line prior
        maxLength =
      some result := by
  unfold tokenizeLine?
  unfold tokenizeLineWithin? at hLine
  dsimp only at hLine ⊢
  split at hLine
  · next hLong =>
      rw [if_pos hLong]
      exact hLine
  · next hShort =>
      rcases Option.map_eq_some_iff.mp hLine with ⟨last, hRun, rfl⟩
      rw [if_neg hShort, LineState.run?_of_runWithin? steps hRun]
      rfl

/- What a line is cut into within a bound. -/
theorem tokenizeLine_of_within?
    {steps : Nat}
    {grammar : Grammar}
    {line : Bytes}
    {prior : RuleStack}
    {maxLength : Nat}
    {result : LineTokens}
    (hLine :
      tokenizeLineWithin? steps grammar line prior maxLength =
        some result) :
    tokenizeLine grammar line prior maxLength = result := by
  rw [tokenizeLine, tokenizeLine?_of_within? hLine]
  rfl

------------------------------------------------------------
-- Documents
------------------------------------------------------------

namespace TokenizedDocument

/- Tokenize `n` more lines, with at most `steps` steps for each. -/
def extendWithin?
    (steps : Nat) :
    Nat → TokenizedDocument → Option TokenizedDocument
| 0, d => some d
| n + 1, d =>
    match d.lines[d.tokenized.size]? with
    | none => some d
    | some text =>
        match
          tokenizeLineWithin? steps d.grammar text d.nextStack
            d.maxLength
        with
        | none => none
        | some line =>
            extendWithin? steps n
              { d with tokenized := d.tokenized.push line }

/- What is tokenized within a bound. -/
theorem extend_of_extendWithin?
    {steps : Nat}
    {last : TokenizedDocument}
    (n : Nat) :
    ∀ {d : TokenizedDocument},
      extendWithin? steps n d = some last → d.extend n = last := by
  induction n with
  | zero =>
      intro d hExtend
      exact Option.some.inj hExtend
  | succ n ih =>
      intro d hExtend
      unfold extendWithin? at hExtend
      cases hLine : d.lines[d.tokenized.size]? with
      | none =>
          rw [hLine] at hExtend
          rw [extend_of_done (Array.getElem?_eq_none_iff.mp hLine)]
          exact Option.some.inj hExtend
      | some text =>
          rw [hLine] at hExtend
          dsimp only at hExtend
          split at hExtend
          · cases hExtend
          · next line hTokens =>
              rw [extend_of_line hLine, advance,
                tokenizeLine_of_within? hTokens]
              exact ih hExtend

/- The tokens that a document holds of a line. -/
def tokensIn (d : TokenizedDocument) (line : Nat) : List Token :=
  match d.tokenized[line]? with
  | none => []
  | some result => result.tokens

/- Once all lines are tokenized, all tokens are known. -/
theorem tokensAt_eq_tokensIn
    {d : TokenizedDocument}
    (hFresh : Fresh d) :
    d.tokensAt = (d.extend d.lines.size).tokensIn := by
  funext line
  change (d.extend (line + 1)).tokensIn line = _
  unfold tokensIn
  by_cases hLine : line < d.lines.size
  · have hReached : line < (d.extend (line + 1)).tokenized.size := by
      rw [size_extend_of_fresh hFresh]
      omega
    have hLater :=
      getElem?_extend (d.lines.size - (line + 1)) _ hReached
    rw [extend_extend, Nat.add_sub_cancel' hLine] at hLater
    rw [hLater]
  · have hFirst :
        (d.extend (line + 1)).tokenized.size ≤ line := by
      rw [size_extend_of_fresh hFresh]
      omega
    have hAll :
        (d.extend d.lines.size).tokenized.size ≤ line := by
      rw [size_extend_of_fresh hFresh]
      omega
    rw [Array.getElem?_eq_none hFirst, Array.getElem?_eq_none hAll]

/- The tokens of a document whose lines all end within a bound. -/
theorem tokensAt_of_extendWithin?
    {steps : Nat}
    {d last : TokenizedDocument}
    (hFresh : Fresh d)
    (hExtend : extendWithin? steps d.lines.size d = some last) :
    d.tokensAt = last.tokensIn := by
  rw [tokensAt_eq_tokensIn hFresh, extend_of_extendWithin? _ hExtend]

/-
  The answer to a question about a document whose lines all end
  within a bound.
-/
theorem answer_of_extendWithin?
    {α : Type}
    {steps : Nat}
    {d last : TokenizedDocument}
    (hFresh : Fresh d)
    (hExtend : extendWithin? steps d.lines.size d = some last)
    (q : TokenQuery α)
    (n : Nat) :
    (answer q (d.extend n)).1 = q.eval last.tokensIn := by
  rw [fst_answer_extend hFresh, tokensAt_of_extendWithin? hFresh hExtend]

end TokenizedDocument

end Marginalia

import Mathlib.Data.List.MinMax
import Marginalia.Proofs.Token.Evaluation

/-
  This file compares the cutting of lines with a plainer way to
  do it, which searches for every pattern at every step and only
  then chooses among all that was found.

  The choice is the hit that starts first, and of those that
  start together the one that is listed first.  The search that
  lines are cut with stops once a hit starts where the search
  began.  What it leaves out could only be listed later and
  start at the same column or behind it, provided that no match
  starts before its search.

  Key definitions include:
    * `Engine.SearchesForward`
    * `Hit.leftmost?`, `Hit.IsLeftmost`
    * `LineState.hits`
    * `LineState.plainStep`, `LineState.plainRun?`
    * `tokenizePlainly?`
    * `Grammar.angles`
  The main statements are:
    * `Hit.leftmost?_eq_some_iff`
    * `LineState.best?_eq_leftmost?`
    * `LineState.run?_eq_plainRun?`
    * `tokenizeLine?_eq_tokenizePlainly?`
-/

namespace Marginalia

/- No match of the engine starts before the column of its search. -/
def Engine.SearchesForward (engine : Engine) : Prop :=
  ∀ {pattern : Pattern} {line : Array UInt8} {column : Nat}
    {m : Match},
    engine.search? pattern line column = some m → column ≤ m.start

------------------------------------------------------------
-- The Choice
------------------------------------------------------------

namespace Hit

/- The first of the hits that start leftmost. -/
def leftmost? (hits : List Hit) : Option Hit :=
  hits.argmin (fun hit => hit.found.start)

/-
  The hit is one of some hits: those listed before it start
  later, and those listed behind it do not start earlier.
-/
def IsLeftmost (hit : Hit) (hits : List Hit) : Prop :=
  ∃ before after,
    hits = before ++ hit :: after ∧
      (∀ other ∈ before, hit.found.start < other.found.start) ∧
        ∀ other ∈ after, hit.found.start ≤ other.found.start

/- Nothing is chosen only if there is nothing to choose from. -/
theorem leftmost?_eq_none_iff
    {hits : List Hit} :
    leftmost? hits = none ↔ hits = [] :=
  List.argmin_eq_none

/- There is at most one leftmost hit. -/
theorem isLeftmost_unique
    {a b : Hit}
    (hits : List Hit) :
    a.IsLeftmost hits → b.IsLeftmost hits → a = b := by
  rintro ⟨before, after, rfl, hBefore, hAfter⟩
    ⟨before', after', hSplit, hBefore', hAfter'⟩
  rcases List.append_eq_append_iff.mp hSplit with
    ⟨between, hLater, hRest⟩ | ⟨between, hLater, hRest⟩
  · cases between with
    | nil => exact (List.cons.inj hRest).1
    | cons c between =>
        rcases List.cons.inj hRest with ⟨rfl, rfl⟩
        have hEarly := hBefore' a (by simp [hLater])
        have hLate := hAfter b (by simp)
        omega
  · cases between with
    | nil => exact (List.cons.inj hRest).1.symm
    | cons c between =>
        rcases List.cons.inj hRest with ⟨rfl, rfl⟩
        have hEarly := hBefore b (by simp [hLater])
        have hLate := hAfter' a (by simp)
        omega

/- What is chosen is leftmost.  The induction adds a hit in front. -/
theorem isLeftmost_of_leftmost?
    (hits : List Hit) :
    ∀ {hit : Hit},
      leftmost? hits = some hit → hit.IsLeftmost hits := by
  induction hits with
  | nil =>
      intro hit hChosen
      cases hChosen
  | cons first rest ih =>
      intro hit hChosen
      unfold leftmost? at hChosen ih
      rw [List.argmin_cons] at hChosen
      cases hRest : rest.argmin (fun hit => hit.found.start) with
      | none =>
          rw [hRest] at hChosen
          cases hChosen
          rw [List.argmin_eq_none.mp hRest]
          exact ⟨[], [], rfl, by simp, by simp⟩
      | some other =>
          rw [hRest] at hChosen
          dsimp only at hChosen
          split at hChosen
          · next hEarlier =>
              cases hChosen
              rcases ih hRest with ⟨before, after, rfl, hBefore, hAfter⟩
              refine ⟨first :: before, after, rfl, ?_, hAfter⟩
              intro another hAnother
              rcases List.mem_cons.mp hAnother with rfl | hLater
              · exact hEarlier
              · exact hBefore another hLater
          · next hNotEarlier =>
              cases hChosen
              refine ⟨[], rest, rfl, by simp, ?_⟩
              intro another hAnother
              have hLe := List.le_of_mem_argmin hAnother hRest
              omega

/- The choice is the hit that is leftmost. -/
theorem leftmost?_eq_some_iff
    {hits : List Hit}
    {hit : Hit} :
    leftmost? hits = some hit ↔ hit.IsLeftmost hits := by
  refine ⟨isLeftmost_of_leftmost? hits, ?_⟩
  intro hLeftmost
  cases hChosen : leftmost? hits with
  | none =>
      rw [leftmost?_eq_none_iff.mp hChosen] at hLeftmost
      rcases hLeftmost with ⟨before, after, hSplit, _, _⟩
      simp at hSplit
  | some other =>
      have hOther := isLeftmost_of_leftmost? hits hChosen
      rw [isLeftmost_unique hits hOther hLeftmost]

------------------------------------------------------------
-- Searching for All Patterns
------------------------------------------------------------

variable {engine : Engine}
variable {line : Array UInt8}
variable {column : Nat}

/- What is found of one pattern. -/
def ofTrial?
    (engine : Engine)
    (line : Array UInt8)
    (column : Nat)
    (trial : Trial) : Option Hit :=
  (engine.search? trial.pattern line column).map
    (fun m => ⟨m, trial.origin⟩)

/- Nothing that is found starts before the search. -/
theorem le_start_of_ofTrial?
    {trial : Trial}
    {hit : Hit}
    (hEngine : engine.SearchesForward)
    (hFound : ofTrial? engine line column trial = some hit) :
    column ≤ hit.found.start := by
  rcases Option.map_eq_some_iff.mp hFound with ⟨m, hMatch, rfl⟩
  exact hEngine hMatch

/- One more pattern is one more hit to choose from, if it is found. -/
theorem improve_leftmost?
    {hits : List Hit}
    (hEngine : engine.SearchesForward)
    (hHits : ∀ hit ∈ hits, column ≤ hit.found.start)
    (trial : Trial) :
    improve engine line column (leftmost? hits) trial =
      leftmost? (hits ++ (ofTrial? engine line column trial).toList) := by
  cases hFound : ofTrial? engine line column trial with
  | none =>
      have hNone := Option.map_eq_none_iff.mp hFound
      unfold improve
      simp only [Option.toList_none, List.append_nil, hNone]
      cases leftmost? hits with
      | none => rfl
      | some hit => simp
  | some new =>
      have hNew := le_start_of_ofTrial? hEngine hFound
      rcases Option.map_eq_some_iff.mp hFound with ⟨m, hMatch, rfl⟩
      unfold leftmost? improve
      rw [Option.toList_some, List.argmin_concat, hMatch]
      cases hChosen : hits.argmin (fun hit => hit.found.start) with
      | none => rfl
      | some hit =>
          have hOld := hHits hit (List.argmin_mem hChosen)
          dsimp only at hNew ⊢
          split
          · -- The hit starts where the search does, and no match earlier.
            rw [if_neg (by omega)]
          · rfl

/-
  Searching on only until a hit starts where the search began is
  as good as searching for all patterns.
-/
theorem first?_eq_leftmost?
    (hEngine : engine.SearchesForward)
    (line : Array UInt8)
    (column : Nat)
    (trials : List Trial) :
    first? engine line column trials =
      leftmost? (trials.filterMap (ofTrial? engine line column)) := by
  induction trials using List.reverseRecOn with
  | nil => rfl
  | append_singleton trials trial ih =>
      have hHits :
          ∀ hit ∈ trials.filterMap (ofTrial? engine line column),
            column ≤ hit.found.start := by
        intro hit hMember
        rcases List.mem_filterMap.mp hMember with ⟨other, _, hFound⟩
        exact le_start_of_ofTrial? hEngine hFound
      have hLast :
          [trial].filterMap (ofTrial? engine line column) =
            (ofTrial? engine line column trial).toList := by
        cases hFound : ofTrial? engine line column trial <;>
          simp [hFound]
      unfold first? at ih ⊢
      rw [List.foldl_append, ih, List.filterMap_append, hLast]
      exact improve_leftmost? hEngine hHits trial

end Hit

------------------------------------------------------------
-- Plain Steps
------------------------------------------------------------

namespace LineState

variable {engine : Engine}
variable {grammar : Grammar}
variable {line : Array UInt8}
variable {state last : LineState}

/- Where the innermost region is found to end, if it is. -/
def endHits
    (engine : Engine)
    (line : Array UInt8)
    (state : LineState) : List Hit :=
  (state.top.ending.bind (fun pattern =>
      engine.search? pattern line state.column)).toList.map
    (fun m => ⟨m, .ending⟩)

/- Where the rules that have a pattern are found, in their order. -/
def ruleHits
    (engine : Engine)
    (grammar : Grammar)
    (line : Array UInt8)
    (state : LineState) : List Hit :=
  (grammar.rule state.top.ruleId).candidates.filterMap (fun id =>
    ((grammar.rule id).pattern?.bind (fun pattern =>
        engine.search? pattern line state.column)).map
      (fun m => ⟨m, .rule id⟩))

/-
  All that is found from the column on: the end first, unless
  the region asks for it last, and the rules.
-/
def hits
    (engine : Engine)
    (grammar : Grammar)
    (line : Array UInt8)
    (state : LineState) : List Hit :=
  if (grammar.rule state.top.ruleId).endLast then
    state.ruleHits engine grammar line ++ state.endHits engine line
  else
    state.endHits engine line ++ state.ruleHits engine grammar line

/- One step that searches for all patterns before it chooses. -/
def plainStep
    (engine : Engine)
    (grammar : Grammar)
    (line : Array UInt8)
    (state : LineState) : LineStep :=
  match Hit.leftmost? (state.hits engine grammar line) with
  | none => .done (state.fill state.column line.size)
  | some hit =>
      (state.fill state.column hit.found.start).apply engine grammar
        line hit

/- Take such steps until the line is done. -/
def plainRun?
    (engine : Engine)
    (grammar : Grammar)
    (line : Array UInt8)
    (state : LineState) : Option LineState :=
  match state.plainStep engine grammar line with
  | .next next => next |>.plainRun? engine grammar line
  | .done last => some last
partial_fixpoint

/- All that is found is what is found of the trials, in their order. -/
theorem hits_eq_filterMap
    (engine : Engine)
    (grammar : Grammar)
    (line : Array UInt8)
    (state : LineState) :
    state.hits engine grammar line =
      (state.trials grammar).filterMap
        (Hit.ofTrial? engine line state.column) := by
  have hEnds :
      state.endHits engine line =
        (state.top.ending.toList.map
            (fun p => (⟨p, .ending⟩ : Trial))).filterMap
          (Hit.ofTrial? engine line state.column) := by
    unfold endHits
    cases state.top.ending with
    | none => rfl
    | some pattern =>
        cases hFound : engine.search? pattern line state.column <;>
          simp [Hit.ofTrial?, hFound]
  have hRules :
      state.ruleHits engine grammar line =
        (state.ruleTrials grammar).filterMap
          (Hit.ofTrial? engine line state.column) := by
    unfold ruleHits ruleTrials
    rw [List.filterMap_filterMap]
    apply List.filterMap_congr
    intro id _
    cases (grammar.rule id).pattern? <;> rfl
  unfold hits trials
  dsimp only
  split
  · rw [hEnds, hRules, List.filterMap_append]
  · rw [hEnds, hRules, List.filterMap_append]

/- The hit to go on with is the leftmost one of all. -/
theorem best?_eq_leftmost?
    (hEngine : engine.SearchesForward)
    (grammar : Grammar)
    (line : Array UInt8)
    (state : LineState) :
    state.best? engine grammar line =
      Hit.leftmost? (state.hits engine grammar line) := by
  rw [hits_eq_filterMap]
  exact Hit.first?_eq_leftmost? hEngine line state.column _

/- A plain step does what a step does. -/
theorem step_eq_plainStep
    (hEngine : engine.SearchesForward)
    (grammar : Grammar)
    (line : Array UInt8)
    (state : LineState) :
    state.step engine grammar line =
      state.plainStep engine grammar line := by
  have hBest := best?_eq_leftmost? hEngine grammar line state
  unfold step plainStep
  cases hHit : Hit.leftmost? (state.hits engine grammar line) with
  | none =>
      rw [hHit] at hBest
      rw [hBest]
  | some hit =>
      rw [hHit] at hBest
      rw [hBest]

------------------------------------------------------------
-- Plain Runs
------------------------------------------------------------

/- A run that ends is a plain run, by the recursion of the run. -/
theorem plainRun?_of_run?
    (hEngine : engine.SearchesForward)
    (hRun : state.run? engine grammar line = some last) :
    state.plainRun? engine grammar line = some last := by
  revert state last
  apply run?.partial_correctness
  intro runRest ih state last hRun
  rw [plainRun?, ← step_eq_plainStep hEngine]
  cases hStep : state.step engine grammar line with
  | next next =>
      rw [hStep] at hRun
      exact ih next last hRun
  | done done =>
      rw [hStep] at hRun
      exact hRun

/- A plain run that ends is a run, by the recursion of the plain run. -/
theorem run?_of_plainRun?
    (hEngine : engine.SearchesForward)
    (hRun : state.plainRun? engine grammar line = some last) :
    state.run? engine grammar line = some last := by
  revert state last
  apply plainRun?.partial_correctness
  intro runRest ih state last hRun
  rw [run?, step_eq_plainStep hEngine]
  cases hStep : state.plainStep engine grammar line with
  | next next =>
      rw [hStep] at hRun
      exact ih next last hRun
  | done done =>
      rw [hStep] at hRun
      exact hRun

/- Runs and plain runs come to the same, or do both not end. -/
theorem run?_eq_plainRun?
    (hEngine : engine.SearchesForward)
    (grammar : Grammar)
    (line : Array UInt8)
    (state : LineState) :
    state.run? engine grammar line =
      state.plainRun? engine grammar line := by
  apply Option.ext
  intro last
  exact ⟨plainRun?_of_run? hEngine, run?_of_plainRun? hEngine⟩

end LineState

------------------------------------------------------------
-- Lines
------------------------------------------------------------

/- Cut a line into tokens by plain steps. -/
def tokenizePlainly?
    (engine : Engine)
    (grammar : Grammar)
    (line : Bytes)
    (prior : RuleStack)
    (maxLength : Nat) : Option LineTokens :=
  let state := LineState.start grammar prior
  if 0 < maxLength ∧ maxLength < line.length then
    some (state.fill 0 line.length).result
  else
    (state.plainRun? engine grammar line.toArray).map LineState.result

/-
  The hit that a line goes on with is the first of the leftmost
  ones among all that is found.  So a line is cut into the same
  tokens, and leaves the same stack, if all patterns are searched
  for at every step.  If matches stay inside the line, both ways
  come to an end from every stack that lines leave behind.
-/
theorem tokenizeLine?_eq_tokenizePlainly?
    {engine : Engine}
    (hEngine : engine.SearchesForward)
    (grammar : Grammar)
    (line : Bytes)
    (prior : RuleStack)
    (maxLength : Nat) :
    (∀ (state : LineState) (hit : Hit),
        state.best? engine grammar line.toArray = some hit ↔
          hit.IsLeftmost (state.hits engine grammar line.toArray)) ∧
      tokenizeLine? engine grammar line prior maxLength =
          tokenizePlainly? engine grammar line prior maxLength ∧
        (engine.StaysInside →
          prior.Reached engine grammar →
            ∃ result,
              tokenizeLine? engine grammar line prior maxLength =
                  some result ∧
                tokenizePlainly? engine grammar line prior maxLength =
                  some result) := by
  have hSame :
      tokenizeLine? engine grammar line prior maxLength =
        tokenizePlainly? engine grammar line prior maxLength := by
    unfold tokenizeLine? tokenizePlainly?
    dsimp only
    rw [LineState.run?_eq_plainRun? hEngine]
  refine ⟨?_, hSame, ?_⟩
  · intro state hit
    rw [LineState.best?_eq_leftmost? hEngine,
      Hit.leftmost?_eq_some_iff]
  · intro hInside hPrior
    rcases
        exists_tokenizeLine?_eq_some hInside grammar
          (RuleStack.rooted_of_reached hInside hPrior) line
          maxLength with
      ⟨result, hResult, _⟩
    refine ⟨result, hResult, ?_⟩
    rw [← hSame]
    exact hResult

/-
  A grammar of angles with shifts in them.  A closing angle may
  be where a shift begins.
-/
def Grammar.angles (endLast : Bool) : Grammar :=
  { engine := .standard
    scopeName := utf8 "source.angle"
    rules :=
      #[{ name := []
          contentName := []
          body := .container
          patterns := [1]
          candidates := [1] },
        { name := utf8 "meta.angle"
          contentName := []
          body :=
            .region (Pattern.compile? (utf8 "<")) [] (utf8 ">")
              (.fixed (Pattern.compile? (utf8 ">"))) [] endLast
          patterns := [2]
          candidates := [2] },
        { name := utf8 "keyword.shift"
          contentName := []
          body := .single (Pattern.compile? (utf8 ">>")) []
          patterns := []
          candidates := [] }] }

/-
  An angle is open at the start of a line, where both its end and
  a shift are found.  The one that is listed first is taken.
-/
theorem tokenizePlainly?_angles :
    ∃ prior first second,
      tokenizeLine? Engine.standard (Grammar.angles true)
            (utf8 "<a") RuleStack.empty 0 =
          some prior ∧
        tokenizePlainly? Engine.standard (Grammar.angles true)
              (utf8 ">>b>") prior.stack 0 =
            some first ∧
          first.tokens =
              [⟨0, 2,
                  [utf8 "source.angle", utf8 "meta.angle",
                    utf8 "keyword.shift"]⟩,
                ⟨2, 4, [utf8 "source.angle", utf8 "meta.angle"]⟩] ∧
            tokenizePlainly? Engine.standard (Grammar.angles false)
                  (utf8 ">>b>") prior.stack 0 =
                some second ∧
              second.tokens =
                [⟨0, 1, [utf8 "source.angle", utf8 "meta.angle"]⟩,
                  ⟨1, 4, [utf8 "source.angle"]⟩] := by
  have hForward : Engine.standard.SearchesForward :=
    Engine.standard_staysInside.le_start
  have hPlain :
      ∀ (endLast : Bool) (prior : RuleStack) (result : LineTokens),
        tokenizeLineWithin? 9 (Grammar.angles endLast) (utf8 ">>b>")
              prior 0 =
            some result →
          tokenizePlainly? Engine.standard (Grammar.angles endLast)
              (utf8 ">>b>") prior 0 =
            some result := by
    intro endLast prior result hWithin
    rw [← (tokenizeLine?_eq_tokenizePlainly? hForward _ _ _ _).2.1]
    exact tokenizeLine?_of_within? hWithin
  exact
    ⟨_, _, _, @tokenizeLine?_of_within? 9 _ _ _ _ _ rfl,
      hPlain true _ _ rfl, rfl, hPlain false _ _ rfl, rfl⟩

end Marginalia

import Marginalia.Proofs.Grammar.Sites

/-
  This file says what comes of the actions that number rules, so
  that no later proof opens their monad.

  Only runs that succeed are of interest: a grammar that numbers
  a group beyond 64 bits is not built at all.

  Key definitions include:
    * `Draft.Runs`
    * `Draft.SameTable`
  The main statements are:
    * `Draft.runs_bind_iff`
    * `Draft.sameTable_of_runs_compile`
-/

namespace Marginalia

namespace Draft

variable {α β : Type}

------------------------------------------------------------
-- Actions
------------------------------------------------------------

/- An action succeeds with a value and a table in the making. -/
def Runs
    (action : Action α)
    (draft : Draft)
    (value : α)
    (next : Draft) : Prop :=
  action.run.run draft = (.ok value, next)

/- A value is returned, and nothing else happens. -/
theorem runs_pure_iff
    {v value : α}
    {draft next : Draft} :
    Runs (pure v : Action α) draft value next ↔
      v = value ∧ draft = next := by
  constructor
  · intro hRuns
    cases hRuns
    exact ⟨rfl, rfl⟩
  · rintro ⟨rfl, rfl⟩
    rfl

/- Nothing comes of a failure. -/
theorem not_runs_throw
    {e : TableError}
    {value : α}
    {draft next : Draft} :
    ¬Runs (throw e : Action α) draft value next := by
  intro hRuns
  cases hRuns

/- Of two actions in a row both succeed. -/
theorem runs_bind_iff
    {action : Action α}
    {k : α → Action β}
    {value : β}
    {draft next : Draft} :
    Runs (action >>= k) draft value next ↔
      ∃ v middle,
        Runs action draft v middle ∧ Runs (k v) middle value next := by
  have hRun :
      (action >>= k).run.run draft =
        (ExceptT.bindCont k (action.run.run draft).1 :
          StateM Draft (Except TableError β)).run
            (action.run.run draft).2 := rfl
  unfold Runs
  rw [hRun]
  rcases action.run.run draft with ⟨result, middle⟩
  cases result with
  | ok v =>
      constructor
      · intro hRest
        exact ⟨v, middle, rfl, hRest⟩
      · rintro ⟨w, other, hSame, hRest⟩
        cases hSame
        exact hRest
  | error e =>
      constructor
      · intro hRest
        cases hRest
      · rintro ⟨w, other, hSame, _⟩
        cases hSame

/- The table in the making is looked at. -/
theorem runs_get_iff
    {value draft next : Draft} :
    Runs (get : Action Draft) draft value next ↔
      draft = value ∧ draft = next := by
  constructor
  · intro hRuns
    cases hRuns
    exact ⟨rfl, rfl⟩
  · rintro ⟨rfl, rfl⟩
    rfl

/- The next number is taken. -/
theorem runs_reserve_iff
    {id : RuleId}
    {draft next : Draft} :
    Runs reserve draft id next ↔
      id = draft.rules.size ∧
        next = { draft with rules := draft.rules.push Rule.hollow } := by
  constructor
  · intro hRuns
    cases hRuns
    exact ⟨rfl, rfl⟩
  · rintro ⟨rfl, rfl⟩
    rfl

/- A rule is put in its place. -/
theorem runs_assign_iff
    {id : RuleId}
    {rule : Rule}
    {draft next : Draft} :
    Runs (assign id rule) draft () next ↔
      next =
        { draft with rules := draft.rules.setIfInBounds id rule } := by
  constructor
  · intro hRuns
    cases hRuns
    rfl
  · rintro rfl
    rfl

/- What became of an entry is recorded. -/
theorem runs_record_iff
    {name : Bytes}
    {id? : Option RuleId}
    {draft next : Draft} :
    Runs (record name id?) draft () next ↔
      next =
        { draft with entries := (name, id?) :: draft.entries } := by
  constructor
  · intro hRuns
    cases hRuns
    rfl
  · rintro rfl
    rfl

/- A remark is made. -/
theorem runs_remark_iff
    {r : Diagnostic}
    {draft next : Draft} :
    Runs (remark r) draft () next ↔
      next = { draft with remarks := r :: draft.remarks } := by
  constructor
  · intro hRuns
    cases hRuns
    rfl
  · rintro rfl
    rfl

------------------------------------------------------------
-- Patterns
------------------------------------------------------------

/- Two tables in the making that differ in their remarks at most. -/
structure SameTable (draft next : Draft) : Prop where
  rules_eq : next.rules = draft.rules
  entries_eq : next.entries = draft.entries

/- A pattern is compiled, and nothing but a remark is left of it. -/
theorem sameTable_of_runs_pattern
    {engine : Engine}
    {source : Bytes}
    {p : Option Pattern}
    {draft next : Draft}
    (hRuns : Runs (pattern engine source) draft p next) :
    p = engine.compile? source ∧ SameTable draft next := by
  unfold pattern at hRuns
  split at hRuns
  · next compiled hCompiled =>
      rcases runs_pure_iff.mp hRuns with ⟨rfl, rfl⟩
      exact ⟨hCompiled.symm, rfl, rfl⟩
  · next hRejected =>
      rcases runs_bind_iff.mp hRuns with ⟨_, middle, hRemark, hRest⟩
      rcases runs_pure_iff.mp hRest with ⟨rfl, rfl⟩
      cases runs_remark_iff.mp hRemark
      exact ⟨hRejected.symm, rfl, rfl⟩

/- What a kind does is compiled, and the table stays as it is. -/
theorem sameTable_of_runs_compile
    {engine : Engine}
    {kind : Declaration.Kind}
    {body : Rule.Body}
    {draft next : Draft}
    (hRuns : Runs (kind.compile engine) draft body next) :
    body = kind.body engine ∧ SameTable draft next := by
  cases kind with
  | single source captures =>
      rcases runs_bind_iff.mp hRuns with ⟨p, middle, hPattern, hRest⟩
      rcases runs_pure_iff.mp hRest with ⟨rfl, rfl⟩
      rcases sameTable_of_runs_pattern hPattern with ⟨rfl, hSame⟩
      exact ⟨rfl, hSame⟩
  | region openSource captures endSource endCaptures endLast =>
      rcases runs_bind_iff.mp hRuns with
        ⟨opening, middle, hOpening, hRest⟩
      rcases sameTable_of_runs_pattern hOpening with ⟨rfl, hSame⟩
      split at hRest
      · next hOccurs =>
          rcases runs_pure_iff.mp hRest with ⟨rfl, rfl⟩
          simp [Declaration.Kind.body, hOccurs, hSame]
      · next hOccurs =>
          rcases runs_bind_iff.mp hRest with
            ⟨closing, last, hClosing, hEnd⟩
          rcases runs_pure_iff.mp hEnd with ⟨rfl, rfl⟩
          rcases sameTable_of_runs_pattern hClosing with
            ⟨rfl, hLater⟩
          refine ⟨?_, ?_, ?_⟩
          · simp [Declaration.Kind.body, hOccurs]
          · rw [hLater.rules_eq, hSame.rules_eq]
          · rw [hLater.entries_eq, hSame.entries_eq]
  | container =>
      rcases runs_pure_iff.mp hRuns with ⟨rfl, rfl⟩
      exact ⟨rfl, rfl, rfl⟩

end Draft

end Marginalia

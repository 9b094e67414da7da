import Marginalia.Grammar.Table
import Marginalia.Proofs.Grammar.Correspondence

/-
  This file evaluates grammars within a bound, so that what a
  grammar does with a given text can be computed.

  The candidates of a rule are found by a walk that is defined by
  its measure.  Here the walk takes a number of steps at most, and
  has no result if they do not suffice.

  All that a grammar has of its engine is how sources are compiled:
  engines that compile alike have the same drafts.

  Key definitions include:
    * `Grammar.draft?`
    * `RuleTable.collectWithin?`
    * `Grammar.ofJsonWithin?`
  The main statements are:
    * `Grammar.draft?_congr`
    * `Grammar.ofJson_of_draft?`
    * `RuleTable.collect_of_collectWithin?`
    * `Grammar.ofJson_of_ofJsonWithin?`
-/

namespace Marginalia

------------------------------------------------------------
-- Engines That Compile Alike
------------------------------------------------------------

section Engines

variable {engine other : Engine}

namespace Declaration

/- What a rule does is compiled alike. -/
theorem Kind.compile_congr
    (hCompile : engine.compile? = other.compile?)
    (kind : Kind) :
    kind.compile engine = kind.compile other := by
  have hPattern : Draft.pattern engine = Draft.pattern other := by
    funext source
    unfold Draft.pattern
    rw [hCompile]
  cases kind <;> simp only [Kind.compile, hPattern]

mutual

/- A declaration is compiled alike. -/
theorem compile_congr
    (hCompile : engine.compile? = other.compile?)
    (scopeName : Bytes)
    (entry : Bytes → Draft.Action (Option RuleId)) :
    ∀ c : Declaration,
      compile engine scopeName entry c = compile other scopeName entry c
| .reference _ | .endless _ | .unnumbered | .invalid => rfl
| .rule header children => by
    simp only [compile, Kind.compile_congr hCompile,
      compileAll_congr hCompile scopeName entry children]

/- So is a list of declarations. -/
theorem compileAll_congr
    (hCompile : engine.compile? = other.compile?)
    (scopeName : Bytes)
    (entry : Bytes → Draft.Action (Option RuleId)) :
    ∀ cs : List Declaration,
      compileAll engine scopeName entry cs =
        compileAll other scopeName entry cs
| [] => rfl
| c :: cs => by
    simp only [compileAll, compile_congr hCompile scopeName entry c,
      compileAll_congr hCompile scopeName entry cs]

end

/- So is a declaration with a number. -/
theorem compileInto_congr
    (hCompile : engine.compile? = other.compile?)
    (scopeName : Bytes)
    (entry : Bytes → Draft.Action (Option RuleId))
    (id : RuleId)
    (c : Declaration) :
    compileInto engine scopeName entry id c =
      compileInto other scopeName entry id c := by
  cases c with
  | rule header children =>
      simp only [compileInto, Kind.compile_congr hCompile,
        compileAll_congr hCompile]
  | _ => rfl

end Declaration

namespace GrammarDeclaration

/- An entry is compiled alike.  The induction is on the depth. -/
theorem entry_congr
    (hCompile : engine.compile? = other.compile?)
    (d : GrammarDeclaration)
    (depth : Nat) :
    d.entry engine depth = d.entry other depth := by
  induction depth with
  | zero => rfl
  | succ depth ih =>
      funext name
      simp only [entry, ih, Declaration.compileInto_congr hCompile]

/- A grammar is compiled alike. -/
theorem compile_congr
    (hCompile : engine.compile? = other.compile?)
    (d : GrammarDeclaration) :
    d.compile engine = d.compile other := by
  simp only [compile, entry_congr hCompile,
    Declaration.compileAll_congr hCompile]

end GrammarDeclaration

end Engines

------------------------------------------------------------
-- Drafts
------------------------------------------------------------

namespace Grammar

/-
  The scope name and the rules of the grammar that a value
  denotes, before their candidates are found.  No remark was made
  on them.
-/
def draft?
    (engine : BoundedEngine)
    (value : Json) : Option (Bytes × Array Rule) :=
  match GrammarDeclaration.ofJson? value with
  | none => none
  | some d =>
      match (d.compile engine.toEngine).run.run Draft.start with
      | (.ok (), draft) =>
          if draft.remarks.isEmpty then some (d.scopeName, draft.rules)
          else none
      | (.error _, _) => none

/- Engines that compile alike have the same drafts. -/
theorem draft?_congr
    {engine other : BoundedEngine}
    (hCompile : engine.compile? = other.compile?)
    (value : Json) :
    draft? engine value = draft? other value := by
  unfold draft?
  simp only [GrammarDeclaration.compile_congr hCompile]

/- A grammar is its draft with the candidates found. -/
theorem ofJson_of_draft?
    {engine : BoundedEngine}
    {value : Json}
    {scopeName : Bytes}
    {rules : Array Rule}
    (hDraft : draft? engine value = some (scopeName, rules)) :
    ofJson engine value =
      (.ok (some ⟨engine, scopeName, RuleTable.flatten rules⟩),
        []) := by
  unfold draft? at hDraft
  cases hDeclaration : GrammarDeclaration.ofJson? value with
  | none =>
      rw [hDeclaration] at hDraft
      cases hDraft
  | some d =>
      rw [hDeclaration] at hDraft
      dsimp only at hDraft
      unfold ofJson ofDeclaration
      rw [hDeclaration]
      dsimp only
      generalize (d.compile engine.toEngine).run.run Draft.start =
        outcome at hDraft ⊢
      rcases outcome with ⟨error | ⟨⟨⟩⟩, draft⟩
      · cases hDraft
      · dsimp only at hDraft
        split at hDraft
        · next hEmpty =>
            cases hDraft
            dsimp only
            rw [List.isEmpty_iff.mp hEmpty]
            rfl
        · cases hDraft

end Grammar

------------------------------------------------------------
-- Candidates
------------------------------------------------------------

namespace RuleTable

variable {rules : Array Rule}
variable {steps : Nat}

/- The walk through the rules, in at most `steps` steps. -/
def collectWithin?
    (rules : Array Rule) :
    Nat → List RuleId → List RuleId → Option (List RuleId)
| _, _, [] => some []
| 0, _, _ :: _ => none
| steps + 1, unseen, id :: todo =>
    if id ∈ unseen then
      if (ruleAt rules id).isContainer then
        collectWithin? rules steps (unseen.erase id)
          ((ruleAt rules id).patterns ++ todo)
      else
        (collectWithin? rules steps (unseen.erase id) todo).map
          (fun ids => id :: ids)
    else collectWithin? rules steps unseen todo

/- What is found within a bound. -/
theorem collect_of_collectWithin?
    (steps : Nat) :
    ∀ {unseen todo ids : List RuleId},
      collectWithin? rules steps unseen todo = some ids →
        collect rules unseen todo = ids := by
  induction steps with
  | zero =>
      intro unseen todo ids hCollect
      cases todo with
      | nil =>
          rw [collect_nil]
          exact Option.some.inj hCollect
      | cons id todo => cases hCollect
  | succ steps ih =>
      intro unseen todo ids hCollect
      cases todo with
      | nil =>
          rw [collect_nil]
          exact Option.some.inj hCollect
      | cons id todo =>
          rw [collectWithin?] at hCollect
          by_cases hUnseen : id ∈ unseen
          · rw [if_pos hUnseen] at hCollect
            cases hContainer : (ruleAt rules id).isContainer with
            | true =>
                rw [if_pos hContainer] at hCollect
                rw [collect_of_container hUnseen hContainer]
                exact ih hCollect
            | false =>
                rw [hContainer, if_neg Bool.false_ne_true] at hCollect
                rcases Option.map_eq_some_iff.mp hCollect with
                  ⟨more, hMore, rfl⟩
                rw [collect_of_rule hUnseen hContainer, ih hMore]
          · rw [if_neg hUnseen] at hCollect
            rw [collect_of_seen hUnseen]
            exact ih hCollect

/- The candidates of a rule, within a bound. -/
def candidatesWithin?
    (steps : Nat)
    (rules : Array Rule)
    (rule : Rule) : Option (List RuleId) :=
  collectWithin? rules steps (List.range rules.size) rule.patterns

/- The table with the candidates of every rule, within a bound. -/
def flattenWithin?
    (steps : Nat)
    (rules : Array Rule) : Option (Array Rule) :=
  if rules.all (fun r => (candidatesWithin? steps rules r).isSome) then
    some
      (rules.map (fun r =>
        { r with
          candidates := (candidatesWithin? steps rules r).getD [] }))
  else none

/- A table that is found within a bound. -/
theorem flatten_of_flattenWithin?
    {table : Array Rule}
    (hFlatten : flattenWithin? steps rules = some table) :
    flatten rules = table := by
  unfold flattenWithin? at hFlatten
  split at hFlatten
  · next hAll =>
      cases hFlatten
      unfold flatten
      apply Array.map_congr_left
      intro rule hRule
      have hSome := Array.all_eq_true_iff_forall_mem.mp hAll rule hRule
      rcases Option.isSome_iff_exists.mp hSome with ⟨ids, hIds⟩
      rw [hIds, candidates, collect_of_collectWithin? steps hIds]
      rfl
  · cases hFlatten

end RuleTable

------------------------------------------------------------
-- Grammars
------------------------------------------------------------

namespace Grammar

/- The grammar that a value denotes, within a bound. -/
def ofJsonWithin?
    (engine : BoundedEngine)
    (steps : Nat)
    (value : Json) : Option Grammar :=
  match draft? engine value with
  | none => none
  | some (scopeName, rules) =>
      (RuleTable.flattenWithin? steps rules).map (fun table =>
        ⟨engine, scopeName, table⟩)

/- A grammar that is found within a bound. -/
theorem ofJson_of_ofJsonWithin?
    {engine : BoundedEngine}
    {steps : Nat}
    {value : Json}
    {grammar : Grammar}
    (hGrammar : ofJsonWithin? engine steps value = some grammar) :
    ofJson engine value = (.ok (some grammar), []) := by
  unfold ofJsonWithin? at hGrammar
  cases hDraft : draft? engine value with
  | none =>
      rw [hDraft] at hGrammar
      cases hGrammar
  | some outcome =>
      rcases outcome with ⟨scopeName, rules⟩
      rw [hDraft] at hGrammar
      rcases Option.map_eq_some_iff.mp hGrammar with ⟨table, hTable, rfl⟩
      rw [ofJson_of_draft? hDraft,
        RuleTable.flatten_of_flattenWithin? hTable]

end Grammar

end Marginalia

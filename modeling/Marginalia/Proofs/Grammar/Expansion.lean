import Mathlib.Data.Fintype.EquivFin
import Mathlib.Logic.Relation
import Marginalia.Proofs.Grammar.Evaluation
import Marginalia.Proofs.Grammar.Numbering

/-
  This file proves which rules may match inside a rule, and in
  which order they are tried.

  A container holds what it lists, and may hold more through
  containers that it lists.  What may match inside a rule is all
  that is no container and that the patterns of the rule lead to
  in this way, be it in circles.  If no container holds itself,
  the order is that of writing the patterns out, each container
  replaced by what it comes to, and striking out repetitions.

  The walk that finds the candidates visits no container twice.
  This loses nothing: what a container holds was found before,
  as long as the walk has left the container.

  Key definitions include:
    * `RuleTable.Holds`, `RuleTable.Reaches`
    * `RuleTable.Acyclic`
    * `RuleTable.Expands`
    * `RuleTable.Pending`, `RuleTable.Passed`
  The main statements are:
    * `RuleTable.mem_collect_of_reaches`
    * `RuleTable.exists_expands`
    * `RuleTable.collect_eq_eraseDups`
    * `Grammar.candidates_of_ofJson`
-/

namespace Marginalia

------------------------------------------------------------
-- What Containers Hold
------------------------------------------------------------

namespace RuleTable

open Relation (ReflTransGen TransGen)

/- A rule is a container that lists another rule. -/
def Holds (rules : Array Rule) (outer inner : RuleId) : Prop :=
  (ruleAt rules outer).isContainer = true ∧
    inner ∈ (ruleAt rules outer).patterns

/- One of the listed rules is this one, or holds it through containers. -/
def Reaches
    (rules : Array Rule)
    (listed : List RuleId)
    (id : RuleId) : Prop :=
  ∃ first ∈ listed, ReflTransGen (Holds rules) first id

/- No container holds itself, be it through others. -/
def Acyclic (rules : Array Rule) : Prop :=
  ∀ id : RuleId, ¬TransGen (Holds rules) id id

/-
  A list of rules is written out: a container is replaced by what
  its own list comes to, and any other rule stays.
-/
inductive Expands
    (rules : Array Rule) : List RuleId → List RuleId → Prop where
| nil : Expands rules [] []
| container
    {id : RuleId}
    {rest inner more : List RuleId}
    (hContainer : (ruleAt rules id).isContainer = true)
    (hInner : Expands rules (ruleAt rules id).patterns inner)
    (hMore : Expands rules rest more) :
    Expands rules (id :: rest) (inner ++ more)
| rule
    {id : RuleId}
    {rest more : List RuleId}
    (hRule : (ruleAt rules id).isContainer = false)
    (hMore : Expands rules rest more) :
    Expands rules (id :: rest) (id :: more)

variable {rules : Array Rule}
variable {id inner : RuleId}
variable {listed before after : List RuleId}

/- Only the rule itself is reached from a rule that is no container. -/
theorem eq_of_leads
    (hRule : (ruleAt rules id).isContainer = false)
    (hLeads : ReflTransGen (Holds rules) id inner) :
    inner = id := by
  rcases hLeads.cases_head with hSame | ⟨next, hHolds, _⟩
  · exact hSame.symm
  · exact absurd (hRule.symm.trans hHolds.1) Bool.false_ne_true

/- A container leads to itself and to what its patterns reach. -/
theorem eq_or_reaches_of_leads
    (hLeads : ReflTransGen (Holds rules) id inner) :
    inner = id ∨ Reaches rules (ruleAt rules id).patterns inner := by
  rcases hLeads.cases_head with hSame | ⟨next, hHolds, hRest⟩
  · exact Or.inl hSame.symm
  · exact Or.inr ⟨next, hHolds.2, hRest⟩

/- What the patterns of a container reach, the container leads to. -/
theorem leads_of_reaches
    (hContainer : (ruleAt rules id).isContainer = true)
    (hReaches : Reaches rules (ruleAt rules id).patterns inner) :
    ReflTransGen (Holds rules) id inner := by
  rcases hReaches with ⟨first, hListed, hLeads⟩
  exact ReflTransGen.head ⟨hContainer, hListed⟩ hLeads

theorem reaches_cons_iff :
    Reaches rules (id :: listed) inner ↔
      ReflTransGen (Holds rules) id inner ∨
        Reaches rules listed inner := by
  simp [Reaches]

theorem reaches_append_iff :
    Reaches rules (before ++ after) inner ↔
      Reaches rules before inner ∨ Reaches rules after inner := by
  simp [Reaches, or_and_right, exists_or]

/- Beyond the table all rules are hollow. -/
theorem ruleAt_of_not_lt
    (hNot : ¬id < rules.size) :
    ruleAt rules id = Rule.hollow := by
  simp [ruleAt, Array.getD_eq_getD_getElem?, hNot]

/- A rule that is no container is in the table. -/
theorem lt_size_of_rule
    (hRule : (ruleAt rules id).isContainer = false) :
    id < rules.size := by
  by_contra hNot
  rw [ruleAt_of_not_lt hNot] at hRule
  cases hRule

/- A container that holds something is in the table. -/
theorem lt_size_of_holds
    (hHolds : Holds rules id inner) :
    id < rules.size := by
  by_contra hNot
  have hListed := hHolds.2
  rw [ruleAt_of_not_lt hNot] at hListed
  cases hListed

------------------------------------------------------------
-- What Is Found
------------------------------------------------------------

/- No rule is found twice. -/
theorem nodup_collect
    (unseen todo : List RuleId) :
    unseen.Nodup → (collect rules unseen todo).Nodup := by
  induction unseen, todo using collect.induct rules
  case case1 unseen =>
    intro _
    rw [collect_nil]
    exact List.nodup_nil
  case case2 unseen id todo hUnseen rule hContainer ih =>
    intro hNodup
    rw [collect_of_container hUnseen hContainer]
    exact ih (hNodup.erase id)
  case case3 unseen id todo hUnseen rule hContainer ih =>
    intro hNodup
    rw [collect_of_rule hUnseen (Bool.eq_false_iff.mpr hContainer),
      List.nodup_cons]
    refine ⟨?_, ih (hNodup.erase id)⟩
    intro hAgain
    exact hNodup.not_mem_erase (of_mem_collect _ _ hAgain).1
  case case4 unseen id todo hSeen ih =>
    intro hNodup
    rw [collect_of_seen hSeen]
    exact ih hNodup

/- What is found is reached from what is to be visited. -/
theorem reaches_of_mem_collect
    (unseen todo : List RuleId) :
    inner ∈ collect rules unseen todo → Reaches rules todo inner := by
  induction unseen, todo using collect.induct rules
  case case1 unseen =>
    intro hFound
    rw [collect_nil] at hFound
    cases hFound
  case case2 unseen id todo hUnseen rule hContainer ih =>
    intro hFound
    rw [collect_of_container hUnseen hContainer] at hFound
    rw [reaches_cons_iff]
    exact
      (reaches_append_iff.mp (ih hFound)).imp_left
        (leads_of_reaches hContainer)
  case case3 unseen id todo hUnseen rule hContainer ih =>
    intro hFound
    rw [collect_of_rule hUnseen (Bool.eq_false_iff.mpr hContainer)]
      at hFound
    rw [reaches_cons_iff]
    rcases List.mem_cons.mp hFound with rfl | hLater
    · exact Or.inl ReflTransGen.refl
    · exact Or.inr (ih hLater)
  case case4 unseen id todo hSeen ih =>
    intro hFound
    rw [collect_of_seen hSeen] at hFound
    exact reaches_cons_iff.mpr (Or.inr (ih hFound))

/-
  What a container holds that was seen was seen too, or is still
  to be visited.
-/
def Pending
    (rules : Array Rule)
    (unseen todo : List RuleId) : Prop :=
  ∀ {seen inner : RuleId},
    seen ∉ unseen → Holds rules seen inner →
      inner ∉ unseen ∨ inner ∈ todo

/- What a seen rule leads to and is unseen is reached from the rest. -/
theorem reaches_of_pending
    {unseen todo : List RuleId}
    (hPending : Pending rules unseen todo)
    (hUnseen : inner ∈ unseen)
    (hLeads : ReflTransGen (Holds rules) id inner) :
    id ∉ unseen →
      ∃ first ∈ todo,
        first ∈ unseen ∧ ReflTransGen (Holds rules) first inner := by
  induction hLeads using ReflTransGen.head_induction_on with
  | refl => exact fun hSeen => absurd hUnseen hSeen
  | @head outer next hHolds hRest ih =>
      intro hSeen
      by_cases hNext : next ∈ unseen
      · rcases hPending hSeen hHolds with hNot | hTodo
        · exact absurd hNext hNot
        · exact ⟨next, hTodo, hNext, hRest⟩
      · exact ih hNext

/-
  A rule is seen.  What it holds, and nothing else, is now to be
  visited before the rest.
-/
theorem pending_erase
    {unseen todo next : List RuleId}
    (hNodup : unseen.Nodup)
    (hPending : Pending rules unseen (id :: todo))
    (hNext : ∀ inner, Holds rules id inner → inner ∈ next) :
    Pending rules (unseen.erase id) (next ++ todo) := by
  intro seen inner hSeen hHolds
  rw [hNodup.mem_erase_iff] at hSeen ⊢
  by_cases hSame : seen = id
  · subst hSame
    exact Or.inr (List.mem_append_left _ (hNext inner hHolds))
  · have hOld : seen ∉ unseen := fun h => hSeen ⟨hSame, h⟩
    rcases hPending hOld hHolds with hNot | hTodo
    · exact Or.inl (fun h => hNot h.2)
    · rcases List.mem_cons.mp hTodo with rfl | hLater
      · exact Or.inl (fun h => h.1 rfl)
      · exact Or.inr (List.mem_append_right _ hLater)

/- A rule that was seen is passed over. -/
theorem pending_of_seen
    {unseen todo : List RuleId}
    (hPending : Pending rules unseen (id :: todo))
    (hSeen : id ∉ unseen) :
    Pending rules unseen todo := by
  intro seen inner hOld hHolds
  rcases hPending hOld hHolds with hNot | hTodo
  · exact Or.inl hNot
  · rcases List.mem_cons.mp hTodo with rfl | hLater
    · exact Or.inl hSeen
    · exact Or.inr hLater

/-
  Of what is reached from the rules to be visited, all that is
  unseen and no container is found, whether or not containers
  hold each other in circles.
-/
theorem mem_collect_of_reaches
    (hRule : (ruleAt rules inner).isContainer = false)
    (unseen todo : List RuleId) :
    unseen.Nodup →
      Pending rules unseen todo →
        inner ∈ unseen →
          Reaches rules todo inner →
            inner ∈ collect rules unseen todo := by
  induction unseen, todo using collect.induct rules
  case case1 unseen =>
    intro _ _ _ hReaches
    rcases hReaches with ⟨_, hListed, _⟩
    cases hListed
  case case2 unseen id todo hHere rule hContainer ih =>
    intro hNodup hPending hUnseen hReaches
    rw [collect_of_container hHere hContainer]
    have hNe : inner ≠ id := by
      rintro rfl
      exact absurd (hRule.symm.trans hContainer) Bool.false_ne_true
    apply ih (hNodup.erase id)
    · exact pending_erase hNodup hPending (fun _ hHolds => hHolds.2)
    · exact hNodup.mem_erase_iff.mpr ⟨hNe, hUnseen⟩
    · rw [reaches_append_iff]
      exact
        (reaches_cons_iff.mp hReaches).imp_left
          (fun hLeads => (eq_or_reaches_of_leads hLeads).resolve_left hNe)
  case case3 unseen id todo hHere rule hContainer ih =>
    intro hNodup hPending hUnseen hReaches
    have hPlain : (ruleAt rules id).isContainer = false :=
      Bool.eq_false_iff.mpr hContainer
    rw [collect_of_rule hHere hPlain, List.mem_cons]
    by_cases hSame : inner = id
    · exact Or.inl hSame
    · right
      apply ih (hNodup.erase id)
      · rw [← List.nil_append todo]
        exact
          pending_erase hNodup hPending
            (fun _ hHolds => absurd hHolds.1 hContainer)
      · exact hNodup.mem_erase_iff.mpr ⟨hSame, hUnseen⟩
      · rcases reaches_cons_iff.mp hReaches with hLeads | hLater
        · exact absurd (eq_of_leads hPlain hLeads) hSame
        · exact hLater
  case case4 unseen id todo hSeen ih =>
    intro hNodup hPending hUnseen hReaches
    rw [collect_of_seen hSeen]
    apply ih hNodup (pending_of_seen hPending hSeen) hUnseen
    rcases reaches_cons_iff.mp hReaches with hLeads | hLater
    · rcases reaches_of_pending hPending hUnseen hLeads hSeen with
        ⟨first, hTodo, hFirst, hRest⟩
      rcases List.mem_cons.mp hTodo with rfl | hMore
      · exact absurd hFirst hSeen
      · exact ⟨first, hMore, hRest⟩
    · exact hLater

/- A walk through the whole table finds just what is reached. -/
theorem mem_candidates_iff
    {rule : Rule} :
    id ∈ candidates rules rule ↔
      (ruleAt rules id).isContainer = false ∧
        Reaches rules rule.patterns id := by
  constructor
  · intro hFound
    exact
      ⟨(of_mem_collect _ _ hFound).2, reaches_of_mem_collect _ _ hFound⟩
  · rintro ⟨hRule, hReaches⟩
    apply mem_collect_of_reaches hRule _ _ List.nodup_range
    · intro seen inner hSeen hHolds
      exact absurd (List.mem_range.mpr (lt_size_of_holds hHolds)) hSeen
    · exact List.mem_range.mpr (lt_size_of_rule hRule)
    · exact hReaches

------------------------------------------------------------
-- Writing Lists Out
------------------------------------------------------------

/- A container is replaced by what its own list comes to. -/
theorem expands_container_iff
    {ids : List RuleId}
    (hContainer : (ruleAt rules id).isContainer = true) :
    Expands rules (id :: listed) ids ↔
      ∃ inner,
        Expands rules (ruleAt rules id).patterns inner ∧
          ∃ more, Expands rules listed more ∧ inner ++ more = ids := by
  constructor
  · intro hExpands
    cases hExpands with
    | container _ hInner hMore => exact ⟨_, hInner, _, hMore, rfl⟩
    | rule hRule _ =>
        exact absurd (hRule.symm.trans hContainer) Bool.false_ne_true
  · rintro ⟨inner, hInner, more, hMore, rfl⟩
    exact .container hContainer hInner hMore

/- Any other rule is kept. -/
theorem expands_rule_iff
    {ids : List RuleId}
    (hRule : (ruleAt rules id).isContainer = false) :
    Expands rules (id :: listed) ids ↔
      ∃ more, Expands rules listed more ∧ id :: more = ids := by
  constructor
  · intro hExpands
    cases hExpands with
    | container hContainer _ _ =>
        exact absurd (hRule.symm.trans hContainer) Bool.false_ne_true
    | rule _ hMore => exact ⟨_, hMore, rfl⟩
  · rintro ⟨more, hMore, rfl⟩
    exact .rule hRule hMore

/- Two lists in a row are written out one after the other. -/
theorem expands_append
    {inner more : List RuleId}
    (hBefore : Expands rules before inner)
    (hAfter : Expands rules after more) :
    Expands rules (before ++ after) (inner ++ more) := by
  induction hBefore with
  | nil => exact hAfter
  | container hContainer hInner _ _ ih =>
      rw [List.append_assoc]
      exact .container hContainer hInner ih
  | rule hRule _ ih => exact .rule hRule ih

/- Writing out leaves no container, and only what is reached. -/
theorem of_mem_expands
    {ids : List RuleId}
    (hExpands : Expands rules listed ids) :
    ∀ id ∈ ids,
      (ruleAt rules id).isContainer = false ∧
        Reaches rules listed id := by
  induction hExpands with
  | nil =>
      intro id hFound
      cases hFound
  | container hContainer _ _ ihInner ihMore =>
      intro id hFound
      rw [reaches_cons_iff]
      rcases List.mem_append.mp hFound with hHere | hLater
      · rcases ihInner id hHere with ⟨hRule, hReaches⟩
        exact ⟨hRule, Or.inl (leads_of_reaches hContainer hReaches)⟩
      · exact (ihMore id hLater).imp_right Or.inr
  | rule hRule _ ih =>
      intro id hFound
      rw [reaches_cons_iff]
      rcases List.mem_cons.mp hFound with rfl | hLater
      · exact ⟨hRule, Or.inl ReflTransGen.refl⟩
      · exact (ih id hLater).imp_right Or.inr

/-
  A list is written out if the lists of its containers are, one
  by one.
-/
theorem exists_expands_of_each
    (listed : List RuleId) :
    (∀ id ∈ listed,
      (ruleAt rules id).isContainer = true →
        ∃ inner, Expands rules (ruleAt rules id).patterns inner) →
      ∃ ids, Expands rules listed ids := by
  induction listed with
  | nil => exact fun _ => ⟨[], .nil⟩
  | cons id listed ih =>
      intro hEach
      rcases ih (fun other hOther => hEach other (by simp [hOther])) with
        ⟨more, hMore⟩
      cases hContainer : (ruleAt rules id).isContainer with
      | true =>
          rcases hEach id List.mem_cons_self hContainer with
            ⟨inner, hInner⟩
          exact ⟨_, .container hContainer hInner hMore⟩
      | false => exact ⟨_, .rule hContainer hMore⟩

/-
  If no container holds itself, going from containers to what
  they hold comes to an end, as the table is finite.
-/
theorem wellFounded_holds
    (hAcyclic : Acyclic rules) :
    WellFounded (fun inner outer : Fin rules.size =>
      TransGen (Holds rules) outer.val inner.val) := by
  have hIrrefl :
      Std.Irrefl (fun inner outer : Fin rules.size =>
        TransGen (Holds rules) outer.val inner.val) :=
    ⟨fun id => hAcyclic id.val⟩
  have hTrans :
      IsTrans (Fin rules.size) (fun inner outer =>
        TransGen (Holds rules) outer.val inner.val) :=
    ⟨fun _ _ _ hFirst hSecond => hSecond.trans hFirst⟩
  exact Finite.wellFounded_of_trans_of_irrefl _

/- If no container holds itself, every list can be written out. -/
theorem exists_expands
    (hAcyclic : Acyclic rules)
    (listed : List RuleId) :
    ∃ ids, Expands rules listed ids := by
  have hInTable :
      ∀ id : Fin rules.size,
        (ruleAt rules id.val).isContainer = true →
          ∃ inner,
            Expands rules (ruleAt rules id.val).patterns inner := by
    intro id
    induction id using (wellFounded_holds hAcyclic).induction with
    | h outer ih =>
        intro hContainer
        apply exists_expands_of_each
        intro inner hListed hInner
        by_cases hLt : inner < rules.size
        · exact
            ih ⟨inner, hLt⟩ (TransGen.single ⟨hContainer, hListed⟩)
              hInner
        · rw [ruleAt_of_not_lt hLt]
          exact ⟨[], .nil⟩
  apply exists_expands_of_each
  intro id _ hContainer
  by_cases hLt : id < rules.size
  · exact hInTable ⟨id, hLt⟩ hContainer
  · rw [ruleAt_of_not_lt hLt]
    exact ⟨[], .nil⟩

------------------------------------------------------------
-- The Order of What Is Found
------------------------------------------------------------

/-
  What a seen rule leads to was seen too, or is reached from what
  is to be visited before that rule is come to again.
-/
def Passed
    (rules : Array Rule)
    (unseen todo : List RuleId) : Prop :=
  ∀ {before after : List RuleId} {id seen inner : RuleId},
    todo = before ++ id :: after →
      ReflTransGen (Holds rules) id seen →
        seen ∉ unseen →
          ReflTransGen (Holds rules) seen inner →
            inner ∉ unseen ∨ Reaches rules before inner

/- An item of two lists in a row is in the first or in the second. -/
theorem mem_or_exists_of_append_eq
    {todo next : List RuleId}
    (hSplit : next ++ todo = before ++ id :: after) :
    id ∈ next ∨
      ∃ more, before = next ++ more ∧ todo = more ++ id :: after := by
  rcases List.append_eq_append_iff.mp hSplit with
    hLate | ⟨more, hNext, hMore⟩
  · exact Or.inr hLate
  · cases more with
    | nil =>
        rw [List.append_nil] at hNext
        exact Or.inr ⟨[], by simp [hNext], hMore.symm⟩
    | cons first more =>
        left
        cases hMore
        simp [hNext]

/-
  A rule is seen, and what it holds is now to be visited before
  the rest.  As no container holds itself, it is not come to again
  while that is visited.
-/
theorem passed_erase
    {unseen todo next : List RuleId}
    (hAcyclic : Acyclic rules)
    (hNodup : unseen.Nodup)
    (hPassed : Passed rules unseen (id :: todo))
    (hNext : ∀ inner, inner ∈ next ↔ Holds rules id inner) :
    Passed rules (unseen.erase id) (next ++ todo) := by
  intro before after other seen inner hSplit hTo hSeen hFrom
  rw [hNodup.mem_erase_iff] at hSeen ⊢
  rcases mem_or_exists_of_append_eq hSplit with
    hHere | ⟨more, rfl, hTodo⟩
  · have hBelow : TransGen (Holds rules) id seen :=
      TransGen.head' ((hNext other).mp hHere) hTo
    have hOld : seen ∉ unseen := by
      intro h
      apply hSeen
      refine ⟨?_, h⟩
      rintro rfl
      exact hAcyclic seen hBelow
    have hFirst : id :: todo = [] ++ id :: todo := rfl
    rcases hPassed hFirst hBelow.to_reflTransGen hOld hFrom with
      hNot | ⟨_, hListed, _⟩
    · exact Or.inl (fun h => hNot h.2)
    · cases hListed
  · -- The rule itself has been left when the rest is visited.
    have hLeft :
        ReflTransGen (Holds rules) id inner →
          ¬(inner ≠ id ∧ inner ∈ unseen) ∨
            Reaches rules (next ++ more) inner := by
      intro hLeads
      rcases hLeads.cases_head with rfl | ⟨first, hHolds, hRest⟩
      · exact Or.inl (fun h => h.1 rfl)
      · right
        exact
          reaches_append_iff.mpr
            (Or.inl ⟨first, (hNext first).mpr hHolds, hRest⟩)
    by_cases hSame : seen = id
    · subst hSame
      exact hLeft hFrom
    · have hOld : seen ∉ unseen := fun h => hSeen ⟨hSame, h⟩
      have hSplit' : id :: todo = (id :: more) ++ other :: after := by
        rw [hTodo]
        rfl
      rcases hPassed hSplit' hTo hOld hFrom with hNot | hReaches
      · exact Or.inl (fun h => hNot h.2)
      · rcases reaches_cons_iff.mp hReaches with hLeads | hMore
        · exact hLeft hLeads
        · exact Or.inr (reaches_append_iff.mpr (Or.inr hMore))

/- What a seen rule that is come to leads to was seen. -/
theorem not_mem_of_passed
    {unseen todo : List RuleId}
    (hPassed : Passed rules unseen (id :: todo))
    (hSeen : id ∉ unseen)
    (hLeads : ReflTransGen (Holds rules) id inner) :
    inner ∉ unseen := by
  have hFirst : id :: todo = [] ++ id :: todo := rfl
  rcases hPassed hFirst ReflTransGen.refl hSeen hLeads with
    hNot | ⟨_, hListed, _⟩
  · exact hNot
  · cases hListed

/- So it may be passed over. -/
theorem passed_of_seen
    {unseen todo : List RuleId}
    (hPassed : Passed rules unseen (id :: todo))
    (hSeen : id ∉ unseen) :
    Passed rules unseen todo := by
  intro before after other seen inner hSplit hTo hOld hFrom
  have hSplit' : id :: todo = (id :: before) ++ other :: after := by
    rw [hSplit]
    rfl
  rcases hPassed hSplit' hTo hOld hFrom with hNot | hReaches
  · exact Or.inl hNot
  · exact
      (reaches_cons_iff.mp hReaches).imp_left
        (not_mem_of_passed hPassed hSeen)

/-
  A walk finds the rules of the written list that are unseen, each
  where it first stands.  The induction is on the walk; what it
  does not visit again was found before.
-/
theorem collect_eq_eraseDups
    (hAcyclic : Acyclic rules)
    (unseen todo : List RuleId) :
    ∀ {ids : List RuleId},
      unseen.Nodup →
        Passed rules unseen todo →
          Expands rules todo ids →
            collect rules unseen todo =
              (ids.filter (fun id => id ∈ unseen)).eraseDups := by
  induction unseen, todo using collect.induct rules
  case case1 unseen =>
    intro ids _ _ hExpands
    cases hExpands
    rw [collect_nil]
    rfl
  case case2 unseen id todo hHere rule hContainer ih =>
    intro ids hNodup hPassed hExpands
    have hIds :
        Expands rules ((ruleAt rules id).patterns ++ todo) ids := by
      rcases (expands_container_iff hContainer).mp hExpands with
        ⟨inner, hInner, more, hMore, rfl⟩
      exact expands_append hInner hMore
    have hFilter :
        ids.filter (fun other => other ∈ unseen.erase id) =
          ids.filter (fun other => other ∈ unseen) := by
      apply List.filter_congr
      intro other hOther
      have hNe : other ≠ id := by
        rintro rfl
        have hRule := (of_mem_expands hExpands other hOther).1
        exact absurd (hRule.symm.trans hContainer) Bool.false_ne_true
      simp [hNodup.mem_erase_iff, hNe]
    rw [collect_of_container hHere hContainer, ← hFilter]
    refine ih (hNodup.erase id) ?_ hIds
    exact
      passed_erase hAcyclic hNodup hPassed
        (fun _ => (and_iff_right hContainer).symm)
  case case3 unseen id todo hHere rule hContainer ih =>
    intro ids hNodup hPassed hExpands
    have hRule : (ruleAt rules id).isContainer = false :=
      Bool.eq_false_iff.mpr hContainer
    rcases (expands_rule_iff hRule).mp hExpands with ⟨more, hMore, rfl⟩
    have hFilter :
        (more.filter (fun other => other ∈ unseen)).filter
            (fun other => !other == id) =
          more.filter (fun other => other ∈ unseen.erase id) := by
      rw [List.filter_filter]
      apply List.filter_congr
      intro other _
      rw [Bool.eq_iff_iff]
      simp [hNodup.mem_erase_iff]
    rw [collect_of_rule hHere hRule,
      List.filter_cons_of_pos (by simpa using hHere), List.eraseDups_cons,
      hFilter]
    congr 1
    refine ih (hNodup.erase id) ?_ hMore
    rw [← List.nil_append todo]
    exact
      passed_erase hAcyclic hNodup hPassed
        (fun _ =>
          iff_of_false (by simp) (fun hHolds => hContainer hHolds.1))
  case case4 unseen id todo hSeen ih =>
    intro ids hNodup hPassed hExpands
    rw [collect_of_seen hSeen]
    cases hContainer : (ruleAt rules id).isContainer with
    | true =>
        rcases (expands_container_iff hContainer).mp hExpands with
          ⟨inner, hInner, more, hMore, rfl⟩
        have hFilter :
            inner.filter (fun other => other ∈ unseen) = [] := by
          rw [List.filter_eq_nil_iff]
          intro other hOther
          have hReaches := (of_mem_expands hInner other hOther).2
          simpa using
            not_mem_of_passed hPassed hSeen
              (leads_of_reaches hContainer hReaches)
        rw [List.filter_append, hFilter, List.nil_append]
        exact ih hNodup (passed_of_seen hPassed hSeen) hMore
    | false =>
        rcases (expands_rule_iff hContainer).mp hExpands with
          ⟨more, hMore, rfl⟩
        rw [List.filter_cons_of_neg (by simpa using hSeen)]
        exact ih hNodup (passed_of_seen hPassed hSeen) hMore

/- A walk through the whole table strikes repetitions out. -/
theorem candidates_eq_eraseDups
    {rule : Rule}
    {ids : List RuleId}
    (hAcyclic : Acyclic rules)
    (hExpands : Expands rules rule.patterns ids) :
    candidates rules rule = ids.eraseDups := by
  have hAll :
      ids.filter (fun id => id ∈ List.range rules.size) = ids := by
    rw [List.filter_eq_self]
    intro id hFound
    have hRule := (of_mem_expands hExpands id hFound).1
    simpa using lt_size_of_rule hRule
  unfold candidates
  rw [collect_eq_eraseDups hAcyclic _ _ List.nodup_range ?_ hExpands, hAll]
  -- What is not in the table holds nothing.
  intro before after id seen inner _ _ hSeen hFrom
  rcases hFrom.cases_head with rfl | ⟨_, hHolds, _⟩
  · exact Or.inl hSeen
  · exact absurd (List.mem_range.mpr (lt_size_of_holds hHolds)) hSeen

------------------------------------------------------------
-- Tables with Candidates
------------------------------------------------------------

/- Candidates make no rule a container. -/
theorem isContainer_flatten
    (rules : Array Rule)
    (id : RuleId) :
    (ruleAt (flatten rules) id).isContainer =
      (ruleAt rules id).isContainer := by
  by_cases hLt : id < rules.size
  · rw [Grammar.ruleAt_flatten hLt]
    rfl
  · rw [Grammar.ruleAt_flatten_of_le (Nat.le_of_not_lt hLt),
      ruleAt_of_not_lt hLt]

/- Candidates leave the patterns of a rule as they are. -/
theorem patterns_flatten
    (rules : Array Rule)
    (id : RuleId) :
    (ruleAt (flatten rules) id).patterns =
      (ruleAt rules id).patterns := by
  by_cases hLt : id < rules.size
  · rw [Grammar.ruleAt_flatten hLt]
  · rw [Grammar.ruleAt_flatten_of_le (Nat.le_of_not_lt hLt),
      ruleAt_of_not_lt hLt]

/- So the walk finds the same in the table that has candidates. -/
theorem collect_flatten
    (unseen todo : List RuleId) :
    collect (flatten rules) unseen todo = collect rules unseen todo := by
  induction unseen, todo using collect.induct rules
  case case1 unseen => rw [collect_nil, collect_nil]
  case case2 unseen id todo hUnseen rule hContainer ih =>
    rw [collect_of_container hUnseen hContainer,
      collect_of_container hUnseen
        ((isContainer_flatten rules id).trans hContainer),
      patterns_flatten]
    exact ih
  case case3 unseen id todo hUnseen rule hContainer ih =>
    have hRule : (ruleAt rules id).isContainer = false :=
      Bool.eq_false_iff.mpr hContainer
    rw [collect_of_rule hUnseen hRule,
      collect_of_rule hUnseen
        ((isContainer_flatten rules id).trans hRule),
      ih]
  case case4 unseen id todo hSeen ih =>
    rw [collect_of_seen hSeen, collect_of_seen hSeen]
    exact ih

/- The rules of a table with candidates have those of that table. -/
theorem candidates_of_flatten
    {rule : Rule}
    (hRule : (flatten rules)[id]? = some rule) :
    rule.candidates = candidates (flatten rules) rule := by
  have hBare :
      rules[id]?.map (fun bare =>
          { bare with candidates := candidates rules bare }) =
        some rule := by
    simpa [flatten] using hRule
  rcases Option.map_eq_some_iff.mp hBare with ⟨bare, _, rfl⟩
  unfold candidates
  rw [collect_flatten]
  simp [flatten]

/- A rule of the table that is no container. -/
theorem isContainer_eq_false_iff :
    (ruleAt rules id).isContainer = false ↔
      ∃ rule, rules[id]? = some rule ∧ rule.isContainer = false := by
  constructor
  · intro hRule
    have hLt := lt_size_of_rule hRule
    refine ⟨rules[id], Array.getElem?_eq_getElem hLt, ?_⟩
    simpa [ruleAt, Array.getD_eq_getD_getElem?, hLt] using hRule
  · rintro ⟨rule, hSome, hRule⟩
    simpa [ruleAt, Array.getD_eq_getD_getElem?, hSome] using hRule

/- Ranks that fall from each container to what it holds. -/
theorem acyclic_of_rank
    (rank : RuleId → Nat)
    (hRank :
      ∀ outer < rules.size,
        (ruleAt rules outer).isContainer = true →
          ∀ inner ∈ (ruleAt rules outer).patterns,
            rank inner < rank outer) :
    Acyclic rules := by
  have hFalls :
      ∀ {outer inner : RuleId},
        TransGen (Holds rules) outer inner → rank inner < rank outer := by
    intro outer inner hPath
    induction hPath with
    | single hHolds =>
        exact hRank _ (lt_size_of_holds hHolds) hHolds.1 _ hHolds.2
    | tail _ hHolds ih =>
        exact
          Nat.lt_trans
            (hRank _ (lt_size_of_holds hHolds) hHolds.1 _ hHolds.2) ih
  exact fun id hCycle => Nat.lt_irrefl _ (hFalls hCycle)

end RuleTable

------------------------------------------------------------
-- Grammars
------------------------------------------------------------

namespace Grammar

/-
  What may match inside a rule of a grammar that is built: no rule
  twice, and just the rules that are no container and that the
  patterns of the rule lead to through containers only.  If no
  container of the grammar holds itself, the patterns can be
  written out, each container replaced by what it comes to, and
  without the repetitions that is what may match, in that order.
-/
theorem candidates_of_ofJson
    {engine : BoundedEngine}
    {value : Json}
    {grammar : Grammar}
    {remarks : List Diagnostic}
    {id : Nat}
    {rule : Rule}
    (hBuilt : ofJson engine value = (.ok (some grammar), remarks))
    (hRule : grammar.rules[id]? = some rule) :
    rule.candidates.Nodup ∧
      (∀ other : Nat,
        other ∈ rule.candidates ↔
          (∃ found,
              grammar.rules[other]? = some found ∧
                found.isContainer = false) ∧
            RuleTable.Reaches grammar.rules rule.patterns other) ∧
        (RuleTable.Acyclic grammar.rules →
          (∃ ids, RuleTable.Expands grammar.rules rule.patterns ids) ∧
            ∀ ids : List RuleId,
              RuleTable.Expands grammar.rules rule.patterns ids →
                rule.candidates = ids.eraseDups) := by
  rcases exists_ofDeclaration_eq hBuilt with ⟨d, _, hMade⟩
  rcases exists_laidOut hMade with ⟨sites, rules, _, rfl⟩
  rw [RuleTable.candidates_of_flatten hRule]
  refine ⟨RuleTable.nodup_collect _ _ List.nodup_range, ?_, ?_⟩
  · intro other
    rw [RuleTable.mem_candidates_iff, RuleTable.isContainer_eq_false_iff]
  · intro hAcyclic
    exact
      ⟨RuleTable.exists_expands hAcyclic rule.patterns,
        fun _ hExpands =>
          RuleTable.candidates_eq_eraseDups hAcyclic hExpands⟩

/-
  A grammar whose root comes to some rules more than once, with a
  region that lists the root again.
-/
theorem candidates_of_ofJson_shared :
    let refer := fun name : String =>
      Json.record [("include", .ofString name)]
    let single := fun source : String =>
      Json.record [("match", .ofString source)]
    let doc : Json :=
      .record
        [("scopeName", .ofString "source.shared"),
          ("patterns", .array [refer "#a", refer "#b", refer "#a"]),
          ("repository",
            .record
              [("a",
                  .record
                    [("patterns", .array [single "x", refer "#c"])]),
                ("b",
                  .record
                    [("patterns",
                      .array
                        [refer "#c", single "y", refer "#a",
                          .record
                            [("begin", .ofString "<"),
                              ("end", .ofString ">"),
                              ("patterns",
                                .array [refer "$self"])]])]),
                ("c", .record [("patterns", .array [single "z"])])])]
    ∃ grammar root,
      ofJson .standard doc = (.ok (some grammar), []) ∧
        grammar.rules[0]? = some root ∧
          RuleTable.Acyclic grammar.rules ∧
            root.candidates = [2, 4, 6, 7] ∧
              root.candidates.Nodup ∧
                ∃ ids,
                  RuleTable.Expands grammar.rules root.patterns ids ∧
                    root.candidates = ids.eraseDups := by
  intro refer single doc
  have hComputed :
      (ofJsonWithin? .standard 40 doc).map (fun g =>
          (g.rules[0]?.map Rule.candidates,
            decide
              (∀ outer < g.rules.size,
                (RuleTable.ruleAt g.rules outer).isContainer = true →
                  ∀ inner ∈ (RuleTable.ruleAt g.rules outer).patterns,
                    [4, 2, 0, 1, 0, 3, 0, 0].getD inner 0 <
                      [4, 2, 0, 1, 0, 3, 0, 0].getD outer 0))) =
        some (some [2, 4, 6, 7], true) := by
    decide +kernel
  rcases Option.map_eq_some_iff.mp hComputed with
    ⟨grammar, hWithin, hFound⟩
  rcases Prod.mk.inj hFound with ⟨hRoot, hRank⟩
  rcases Option.map_eq_some_iff.mp hRoot with
    ⟨root, hSome, hCandidates⟩
  have hBuilt := ofJson_of_ofJsonWithin? hWithin
  have hAcyclic :=
    RuleTable.acyclic_of_rank
      (fun id => [4, 2, 0, 1, 0, 3, 0, 0].getD id 0)
      (of_decide_eq_true hRank)
  rcases candidates_of_ofJson hBuilt hSome with
    ⟨hNodup, _, hOrder⟩
  rcases hOrder hAcyclic with ⟨⟨ids, hExpands⟩, hSame⟩
  exact
    ⟨grammar, root, hBuilt, hSome, hAcyclic, hCandidates, hNodup, ids,
      hExpands, hSame ids hExpands⟩

end Grammar

end Marginalia

import Mathlib.Data.List.Forall2
import Mathlib.Data.List.Nodup
import Marginalia.Grammar.Candidates

/-
  This file says when the rules of two grammars correspond,
  whatever numbers they have.

  Two tables are paired by a relation between their numbers.
  Partners are written alike, and list partners in the same
  order; in between, the first table may list rules that are
  idle, as their pattern was rejected.  What may match inside two
  partners then corresponds too, as far as it has a pattern.

  Key definitions include:
    * `RuleTable.Matched`
    * `RuleTable.ruleAt`, `RuleTable.enabled`
    * `RuleTable.Paired`
    * `Grammar.Corresponds`
  The main statements are:
    * `RuleTable.forall₂_collect`
    * `Grammar.corresponds_of_paired`
-/

namespace Marginalia

------------------------------------------------------------
-- Paired Tables
------------------------------------------------------------

namespace RuleTable

/-
  The items of one list are partners of those of another, in the
  same order, but for some that are idle.
-/
inductive Matched
    {α β : Type}
    (partner : α → β → Prop)
    (idle : α → Prop) : List α → List β → Prop where
| nil : Matched partner idle [] []
| pair
    {a : α}
    {b : β}
    {as : List α}
    {bs : List β}
    (hPartner : partner a b)
    (hRest : Matched partner idle as bs) :
    Matched partner idle (a :: as) (b :: bs)
| pass
    {a : α}
    {as : List α}
    {bs : List β}
    (hIdle : idle a)
    (hRest : Matched partner idle as bs) :
    Matched partner idle (a :: as) bs

/- Two lists in a row are matched if each of them is. -/
theorem matched_append
    {α β : Type}
    {partner : α → β → Prop}
    {idle : α → Prop}
    {as as' : List α}
    {bs bs' : List β}
    (hFirst : Matched partner idle as bs)
    (hSecond : Matched partner idle as' bs') :
    Matched partner idle (as ++ as') (bs ++ bs') := by
  induction hFirst with
  | nil => exact hSecond
  | pair hPartner _ ih => exact Matched.pair hPartner ih
  | pass hIdle _ ih => exact Matched.pass hIdle ih

/- Lists that stand for matched lists are matched. -/
theorem matched_of_forall₂
    {α β γ δ : Type}
    {partner : α → β → Prop}
    {idle : α → Prop}
    {partner' : γ → δ → Prop}
    {idle' : γ → Prop}
    {first : γ → α → Prop}
    {second : δ → β → Prop}
    {as : List α}
    {bs : List β}
    (hMatched : Matched partner idle as bs)
    (hPartner :
      ∀ {a b c d},
        partner a b → first c a → second d b → partner' c d)
    (hIdle : ∀ {a c}, idle a → first c a → idle' c) :
    ∀ {cs : List γ} {ds : List δ},
      List.Forall₂ first cs as →
        List.Forall₂ second ds bs → Matched partner' idle' cs ds := by
  induction hMatched with
  | nil =>
      intro cs ds hFirst hSecond
      cases hFirst
      cases hSecond
      exact Matched.nil
  | pair hHead _ ih =>
      intro cs ds hFirst hSecond
      cases hFirst with
      | cons hItem hItems =>
          cases hSecond with
          | cons hOther hOthers =>
              exact
                Matched.pair (hPartner hHead hItem hOther)
                  (ih hItems hOthers)
  | pass hHead _ ih =>
      intro cs ds hFirst hSecond
      cases hFirst with
      | cons hItem hItems =>
          exact Matched.pass (hIdle hHead hItem) (ih hItems hSecond)

/- The rule of a number; beyond the table it is hollow. -/
def ruleAt (rules : Array Rule) (id : RuleId) : Rule :=
  rules.getD id Rule.hollow

/- The rule of a number has a pattern to search for. -/
def enabled (rules : Array Rule) (id : RuleId) : Bool :=
  (ruleAt rules id).pattern?.isSome

/-
  The numbers of two tables are paired.  A number has one partner
  at most, and partners are rules of the tables that are written
  alike.  Idle rules have no partner, and no pattern.
-/
structure Paired
    (partner : RuleId → RuleId → Prop)
    (idle : RuleId → Prop)
    (rules rules' : Array Rule) : Prop where
  lt_left : ∀ {a b : Nat}, partner a b → a < rules.size
  lt_right : ∀ {a b : Nat}, partner a b → b < rules'.size
  eq_iff :
    ∀ {a b c d : RuleId}, partner a b → partner c d → (c = a ↔ d = b)
  name_eq :
    ∀ {a b : RuleId},
      partner a b → (ruleAt rules a).name = (ruleAt rules' b).name
  contentName_eq :
    ∀ {a b : RuleId},
      partner a b →
        (ruleAt rules a).contentName = (ruleAt rules' b).contentName
  body_eq :
    ∀ {a b : RuleId},
      partner a b → (ruleAt rules a).body = (ruleAt rules' b).body
  patterns :
    ∀ {a b : RuleId},
      partner a b →
        Matched partner idle (ruleAt rules a).patterns
          (ruleAt rules' b).patterns
  idle_alone : ∀ {a b : RuleId}, idle a → ¬partner a b
  idle_rejected :
    ∀ {a : RuleId},
      idle a →
        (ruleAt rules a).isContainer = false ∧ enabled rules a = false

section Collect

variable {partner : RuleId → RuleId → Prop}
variable {idle : RuleId → Prop}
variable {rules rules' : Array Rule}

/- Of two partners both are containers or none is. -/
theorem isContainer_eq
    {a b : RuleId}
    (hPaired : Paired partner idle rules rules')
    (hPartner : partner a b) :
    (ruleAt rules a).isContainer = (ruleAt rules' b).isContainer := by
  unfold Rule.isContainer
  rw [hPaired.body_eq hPartner]

/- Partners have the same pattern. -/
theorem pattern?_eq
    {a b : RuleId}
    (hPaired : Paired partner idle rules rules')
    (hPartner : partner a b) :
    (ruleAt rules a).pattern? = (ruleAt rules' b).pattern? := by
  unfold Rule.pattern?
  rw [hPaired.body_eq hPartner]

/- Partners are enabled together. -/
theorem enabled_eq
    {a b : RuleId}
    (hPaired : Paired partner idle rules rules')
    (hPartner : partner a b) :
    enabled rules a = enabled rules' b := by
  unfold enabled
  rw [pattern?_eq hPaired hPartner]

/-
  What is left unseen of two tables: the lists have no number
  twice, and partners are unseen together.
-/
structure Unseen
    (partner : RuleId → RuleId → Prop)
    (unseen unseen' : List RuleId) : Prop where
  nodup : unseen.Nodup
  nodup' : unseen'.Nodup
  mem_iff : ∀ {a b : RuleId}, partner a b → (a ∈ unseen ↔ b ∈ unseen')

/- At first all rules of the tables are unseen. -/
theorem unseen_range
    (hPaired : Paired partner idle rules rules') :
    Unseen partner (List.range rules.size) (List.range rules'.size) where
  nodup := List.nodup_range
  nodup' := List.nodup_range
  mem_iff := by
    intro a b hPartner
    rw [List.mem_range, List.mem_range]
    exact iff_of_true (hPaired.lt_left hPartner) (hPaired.lt_right hPartner)

/- Two partners are seen together. -/
theorem unseen_erase
    {a b : RuleId}
    {unseen unseen' : List RuleId}
    (hPaired : Paired partner idle rules rules')
    (hUnseen : Unseen partner unseen unseen')
    (hPartner : partner a b) :
    Unseen partner (unseen.erase a) (unseen'.erase b) where
  nodup := hUnseen.nodup.erase a
  nodup' := hUnseen.nodup'.erase b
  mem_iff := by
    intro c e hOther
    rw [hUnseen.nodup.mem_erase_iff, hUnseen.nodup'.mem_erase_iff,
      hUnseen.mem_iff hOther, ne_eq, ne_eq,
      hPaired.eq_iff hPartner hOther]

/- An idle rule is seen without the other table. -/
theorem unseen_erase_idle
    {a : RuleId}
    {unseen unseen' : List RuleId}
    (hPaired : Paired partner idle rules rules')
    (hUnseen : Unseen partner unseen unseen')
    (hIdle : idle a) :
    Unseen partner (unseen.erase a) unseen' where
  nodup := hUnseen.nodup.erase a
  nodup' := hUnseen.nodup'
  mem_iff := by
    intro c e hOther
    have hNe : c ≠ a := by
      rintro rfl
      exact hPaired.idle_alone hIdle hOther
    rw [hUnseen.nodup.mem_erase_iff, hUnseen.mem_iff hOther]
    exact and_iff_right hNe

/- An unseen container gives way to what it holds. -/
theorem collect_of_container
    {id : RuleId}
    {unseen todo : List RuleId}
    (hUnseen : id ∈ unseen)
    (hContainer : (ruleAt rules id).isContainer = true) :
    collect rules unseen (id :: todo) =
      collect rules (unseen.erase id)
        ((ruleAt rules id).patterns ++ todo) := by
  unfold ruleAt at hContainer ⊢
  rw [collect, if_pos hUnseen]
  dsimp only
  rw [if_pos hContainer]

/- Any other unseen rule is found. -/
theorem collect_of_rule
    {id : RuleId}
    {unseen todo : List RuleId}
    (hUnseen : id ∈ unseen)
    (hContainer : (ruleAt rules id).isContainer = false) :
    collect rules unseen (id :: todo) =
      id :: collect rules (unseen.erase id) todo := by
  unfold ruleAt at hContainer
  rw [collect, if_pos hUnseen]
  dsimp only
  rw [hContainer]
  rfl

/- A rule that was seen is passed over. -/
theorem collect_of_seen
    {id : RuleId}
    {unseen todo : List RuleId}
    (hSeen : id ∉ unseen) :
    collect rules unseen (id :: todo) = collect rules unseen todo := by
  rw [collect, if_neg hSeen]

/- Nothing is found where nothing is to be visited. -/
theorem collect_nil
    (unseen : List RuleId) :
    collect rules unseen [] = [] := by
  rw [collect]

/- A walk finds nothing but rules that were unseen, and no container. -/
theorem of_mem_collect
    {id : RuleId}
    (unseen todo : List RuleId) :
    id ∈ collect rules unseen todo →
      id ∈ unseen ∧ (ruleAt rules id).isContainer = false := by
  induction unseen, todo using collect.induct rules
  case case1 unseen =>
    intro hFound
    rw [collect_nil] at hFound
    cases hFound
  case case2 unseen other todo hUnseen rule hContainer ih =>
    intro hFound
    rw [collect_of_container hUnseen hContainer] at hFound
    exact (ih hFound).imp_left List.mem_of_mem_erase
  case case3 unseen other todo hUnseen rule hRule ih =>
    intro hFound
    have hOther : (ruleAt rules other).isContainer = false :=
      Bool.eq_false_iff.mpr hRule
    rw [collect_of_rule hUnseen hOther] at hFound
    rcases List.mem_cons.mp hFound with rfl | hLater
    · exact ⟨hUnseen, hOther⟩
    · exact (ih hLater).imp_left List.mem_of_mem_erase
  case case4 unseen other todo hSeen ih =>
    intro hFound
    rw [collect_of_seen hSeen] at hFound
    exact ih hFound

/-
  The enabled rules found by two walks correspond.  The induction
  is on the first walk; at an idle rule the second one waits.
-/
theorem forall₂_collect
    (hPaired : Paired partner idle rules rules')
    (unseen todo : List RuleId) :
    ∀ {unseen' todo' : List RuleId},
      Unseen partner unseen unseen' →
        Matched partner idle todo todo' →
          List.Forall₂ partner
            ((collect rules unseen todo).filter (enabled rules))
            ((collect rules' unseen' todo').filter (enabled rules')) := by
  induction unseen, todo using collect.induct rules
  case case1 unseen =>
    intro unseen' todo' _ hMatched
    cases hMatched
    rw [collect_nil, collect_nil]
    exact List.Forall₂.nil
  case case2 unseen id todo hHere rule hContainer ih =>
    intro unseen' todo' hUnseen hMatched
    rw [collect_of_container hHere hContainer]
    cases hMatched with
    | pair hPartner hRest =>
        rw [collect_of_container ((hUnseen.mem_iff hPartner).mp hHere)
          ((isContainer_eq hPaired hPartner).symm.trans hContainer)]
        exact
          ih (unseen_erase hPaired hUnseen hPartner)
            (matched_append (hPaired.patterns hPartner) hRest)
    | pass hIdle hRest =>
        have hRule := (hPaired.idle_rejected hIdle).1
        exact absurd (hContainer.symm.trans hRule) (by simp)
  case case3 unseen id todo hHere rule hContainer ih =>
    intro unseen' todo' hUnseen hMatched
    have hRule : (ruleAt rules id).isContainer = false :=
      Bool.eq_false_iff.mpr hContainer
    rw [collect_of_rule hHere hRule]
    cases hMatched with
    | @pair _ b _ _ hPartner hRest =>
        rw [collect_of_rule ((hUnseen.mem_iff hPartner).mp hHere)
          ((isContainer_eq hPaired hPartner).symm.trans hRule)]
        have hLater :=
          ih (unseen_erase hPaired hUnseen hPartner) hRest
        have hEnabled := enabled_eq hPaired hPartner
        cases hFirst : enabled rules id with
        | true =>
            rw [List.filter_cons_of_pos hFirst,
              List.filter_cons_of_pos (hEnabled.symm.trans hFirst)]
            exact List.Forall₂.cons hPartner hLater
        | false =>
            have hSecond := hEnabled.symm.trans hFirst
            rw [List.filter_cons_of_neg (by simp [hFirst]),
              List.filter_cons_of_neg (by simp [hSecond])]
            exact hLater
    | pass hIdle hRest =>
        have hRejected := (hPaired.idle_rejected hIdle).2
        rw [List.filter_cons_of_neg (by simp [hRejected])]
        exact ih (unseen_erase_idle hPaired hUnseen hIdle) hRest
  case case4 unseen id todo hSeen ih =>
    intro unseen' todo' hUnseen hMatched
    rw [collect_of_seen hSeen]
    cases hMatched with
    | pair hPartner hRest =>
        rw [collect_of_seen
          (fun hThere => hSeen ((hUnseen.mem_iff hPartner).mpr hThere))]
        exact ih hUnseen hRest
    | pass hIdle hRest => exact ih hUnseen hRest

end Collect

end RuleTable

------------------------------------------------------------
-- Corresponding Grammars
------------------------------------------------------------

namespace Grammar

/- The rules with a pattern among the candidates of a rule. -/
def trialIds (grammar : Grammar) (id : RuleId) : List RuleId :=
  (grammar.rule id).candidates.filter (RuleTable.enabled grammar.rules)

/-
  The rules of two grammars correspond.  A number has one partner
  at most, and partners do the same: what may match inside them
  corresponds, as far as it has a pattern.
-/
structure Corresponds
    (partner : RuleId → RuleId → Prop)
    (grammar grammar' : Grammar) : Prop where
  scopeName_eq : grammar.scopeName = grammar'.scopeName
  root : partner rootId rootId
  eq_iff :
    ∀ {a b c d : RuleId}, partner a b → partner c d → (c = a ↔ d = b)
  name_eq :
    ∀ {a b : RuleId},
      partner a b → (grammar.rule a).name = (grammar'.rule b).name
  contentName_eq :
    ∀ {a b : RuleId},
      partner a b →
        (grammar.rule a).contentName = (grammar'.rule b).contentName
  body_eq :
    ∀ {a b : RuleId},
      partner a b → (grammar.rule a).body = (grammar'.rule b).body
  trials :
    ∀ {a b : RuleId},
      partner a b →
        List.Forall₂ partner (grammar.trialIds a) (grammar'.trialIds b)

/- The rule of a number, in a table with candidates. -/
theorem ruleAt_flatten
    {rules : Array Rule}
    {id : Nat}
    (hLt : id < rules.size) :
    RuleTable.ruleAt (RuleTable.flatten rules) id =
      { RuleTable.ruleAt rules id with
        candidates :=
          RuleTable.candidates rules (RuleTable.ruleAt rules id) } := by
  simp [RuleTable.ruleAt, RuleTable.flatten, Array.getD_eq_getD_getElem?,
    hLt]

/- Beyond the table all rules are hollow. -/
theorem ruleAt_flatten_of_le
    {rules : Array Rule}
    {id : Nat}
    (hLe : rules.size ≤ id) :
    RuleTable.ruleAt (RuleTable.flatten rules) id = Rule.hollow := by
  simp [RuleTable.ruleAt, RuleTable.flatten, Array.getD_eq_getD_getElem?,
    hLe]

/- Candidates enable no rule and disable none. -/
theorem enabled_flatten
    (rules : Array Rule) :
    RuleTable.enabled (RuleTable.flatten rules) =
      RuleTable.enabled rules := by
  funext id
  unfold RuleTable.enabled
  by_cases hLt : id < rules.size
  · rw [ruleAt_flatten hLt]
    rfl
  · simp [RuleTable.ruleAt, RuleTable.flatten,
      Array.getD_eq_getD_getElem?, hLt]

/- Grammars whose tables are paired correspond. -/
theorem corresponds_of_paired
    {partner : RuleId → RuleId → Prop}
    {idle : RuleId → Prop}
    {rules rules' : Array Rule}
    (engine : BoundedEngine)
    (scopeName : Bytes)
    (hPaired : RuleTable.Paired partner idle rules rules')
    (hRoot : partner rootId rootId) :
    Corresponds partner ⟨engine, scopeName, RuleTable.flatten rules⟩
      ⟨engine, scopeName, RuleTable.flatten rules'⟩ where
  scopeName_eq := rfl
  root := hRoot
  eq_iff := hPaired.eq_iff
  name_eq := by
    intro a b hPartner
    change
      (RuleTable.ruleAt (RuleTable.flatten rules) a).name =
        (RuleTable.ruleAt (RuleTable.flatten rules') b).name
    rw [ruleAt_flatten (hPaired.lt_left hPartner),
      ruleAt_flatten (hPaired.lt_right hPartner)]
    exact hPaired.name_eq hPartner
  contentName_eq := by
    intro a b hPartner
    change
      (RuleTable.ruleAt (RuleTable.flatten rules) a).contentName =
        (RuleTable.ruleAt (RuleTable.flatten rules') b).contentName
    rw [ruleAt_flatten (hPaired.lt_left hPartner),
      ruleAt_flatten (hPaired.lt_right hPartner)]
    exact hPaired.contentName_eq hPartner
  body_eq := by
    intro a b hPartner
    change
      (RuleTable.ruleAt (RuleTable.flatten rules) a).body =
        (RuleTable.ruleAt (RuleTable.flatten rules') b).body
    rw [ruleAt_flatten (hPaired.lt_left hPartner),
      ruleAt_flatten (hPaired.lt_right hPartner)]
    exact hPaired.body_eq hPartner
  trials := by
    intro a b hPartner
    change
      List.Forall₂ partner
        ((RuleTable.ruleAt (RuleTable.flatten rules) a).candidates.filter
          (RuleTable.enabled (RuleTable.flatten rules)))
        ((RuleTable.ruleAt (RuleTable.flatten rules') b).candidates.filter
          (RuleTable.enabled (RuleTable.flatten rules')))
    rw [ruleAt_flatten (hPaired.lt_left hPartner),
      ruleAt_flatten (hPaired.lt_right hPartner), enabled_flatten,
      enabled_flatten]
    exact
      RuleTable.forall₂_collect hPaired _ _
        (RuleTable.unseen_range hPaired) (hPaired.patterns hPartner)

end Grammar

end Marginalia

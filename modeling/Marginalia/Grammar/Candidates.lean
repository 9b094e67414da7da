import Marginalia.Grammar.Rule

/-
  This file finds the rules that may match inside a rule: those
  written below it, with each container replaced by what it
  holds in turn.

  Key definitions include:
    * `RuleTable.collect`
    * `RuleTable.candidates`
    * `RuleTable.flatten`
-/

namespace Marginalia

namespace RuleTable

/-
  Walk through the rules that remain to be visited, containers
  before what they hold.  A rule is visited once, and only while
  it is listed as unseen.
-/
def collect
    (rules : Array Rule)
    (unseen : List RuleId) : List RuleId → List RuleId
| [] => []
| id :: todo =>
    if id ∈ unseen then
      let rule := rules.getD id Rule.hollow
      if rule.isContainer then
        collect rules (unseen.erase id) (rule.patterns ++ todo)
      else
        id :: collect rules (unseen.erase id) todo
    else collect rules unseen todo
termination_by todo => (unseen.length, todo.length)
decreasing_by
  all_goals
    first
    | exact Prod.Lex.left _ _ (by
        have := List.length_pos_of_mem (by assumption : id ∈ unseen)
        rw [List.length_erase_of_mem (by assumption)]
        omega)
    | exact Prod.Lex.right _ (by simp)

/- The rules that may match inside a rule, in the order to try them. -/
def candidates (rules : Array Rule) (rule : Rule) : List RuleId :=
  collect rules (List.range rules.size) rule.patterns

/- The table with the candidates of every rule. -/
def flatten (rules : Array Rule) : Array Rule :=
  rules.map (fun rule =>
    { rule with candidates := candidates rules rule })

end RuleTable

end Marginalia

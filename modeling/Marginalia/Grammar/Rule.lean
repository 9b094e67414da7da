import Marginalia.Pattern.Engine

/-
  This file defines compiled grammars: tables of rules that
  refer to each other by number.

  Key definitions include:
    * `RuleId`, `CaptureNames`
    * `Ending`
    * `Rule.Body`, `Rule`
    * `Grammar`, `Grammar.rule`
-/

namespace Marginalia

/- A rule is known by its place in the table. -/
abbrev RuleId :=
  Nat

/- The scope names of groups, in the order of the group numbers. -/
abbrev CaptureNames :=
  List (Nat × Bytes)

------------------------------------------------------------
-- Rules
------------------------------------------------------------

/-
  How a region ends: a pattern compiled once, which is `none` if
  it was rejected, or a source that takes texts from the begin.
-/
inductive Ending where
| fixed (pattern : Option Pattern)
| referring
deriving Repr, Inhabited

namespace Rule

/-
  What a rule does.  A `single` rule colours one match, a
  `region` all from its begin to its end, and a `container`
  stands for the rules it lists.  A rejected pattern is `none`.
-/
inductive Body where
| single (pattern : Option Pattern) (captures : CaptureNames)
| region
    (opening : Option Pattern)
    (captures : CaptureNames)
    (endSource : Bytes)
    (ending : Ending)
    (endCaptures : CaptureNames)
    (endLast : Bool)
| container
deriving Repr, Inhabited

end Rule

/-
  A rule: its scope names, what it does, the rules written below
  it, and the rules that may match inside it once containers are
  replaced by what they hold.
-/
structure Rule where
  name : Bytes
  contentName : Bytes
  body : Rule.Body
  patterns : List RuleId
  candidates : List RuleId
deriving Repr, Inhabited

namespace Rule

/- A container without rules. -/
def hollow : Rule :=
  { name := []
    contentName := []
    body := .container
    patterns := []
    candidates := [] }

/- The rule is a container. -/
def isContainer (rule : Rule) : Bool :=
  match rule.body with
  | .container => true
  | _ => false

/- The rule is a region. -/
def isRegion (rule : Rule) : Bool :=
  match rule.body with
  | .region _ _ _ _ _ _ => true
  | _ => false

/- The pattern that a match of the rule begins with. -/
def pattern? (rule : Rule) : Option Pattern :=
  match rule.body with
  | .single pattern _ => pattern
  | .region opening _ _ _ _ _ => opening
  | .container => none

/- The scope names of the groups of an end. -/
def endCaptures (rule : Rule) : CaptureNames :=
  match rule.body with
  | .region _ _ _ _ names _ => names
  | _ => []

/- The end is tried after the rules inside the region. -/
def endLast (rule : Rule) : Bool :=
  match rule.body with
  | .region _ _ _ _ _ last => last
  | _ => false

end Rule

------------------------------------------------------------
-- Grammars
------------------------------------------------------------

/-
  A grammar: the engine of its patterns, its scope name, and its
  rules, the root being the first.
-/
structure Grammar where
  engine : BoundedEngine
  scopeName : Bytes
  rules : Array Rule
deriving Inhabited

namespace Grammar

/- The number of the root rule. -/
def rootId : RuleId :=
  0

/- The rule of a number; beyond the table it is hollow. -/
def rule (grammar : Grammar) (id : RuleId) : Rule :=
  grammar.rules.getD id Rule.hollow

end Grammar

end Marginalia

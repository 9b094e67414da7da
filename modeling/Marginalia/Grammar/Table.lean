import Marginalia.Diagnostic
import Marginalia.Grammar.BackReference
import Marginalia.Grammar.Candidates
import Marginalia.Grammar.Declaration
import Marginalia.Pattern.Engine

/-
  This file numbers the rules of a grammar and compiles their
  patterns with an engine.

  A rule takes its number before the rules inside it take
  theirs, and an entry of the repository takes one when it is
  first referred to.  So an entry may refer to itself, and all
  references to it share one rule.

  Key definitions include:
    * `TableError`
    * `Draft`, `Draft.Action`
    * `Declaration.compile`
    * `GrammarDeclaration.entry`
    * `Grammar.ofDeclaration`
    * `Grammar.ofJson`
-/

namespace Marginalia

------------------------------------------------------------
-- Tables in the Making
------------------------------------------------------------

/- Why a grammar cannot be built: it numbers a group beyond 64 bits. -/
inductive TableError where
| captureNumber
deriving DecidableEq, Repr

/-
  A table in the making: the rules numbered so far, what became
  of the entries referred to so far, and the remarks made, the
  latest one first.
-/
structure Draft where
  rules : Array Rule
  entries : List (Bytes × Option RuleId)
  remarks : List Diagnostic
deriving Inhabited

/- A step that changes a table in the making, and may fail. -/
abbrev Draft.Action (α : Type) :=
  ExceptT TableError (StateM Draft) α

namespace Draft

/- The table with the root reserved. -/
def start : Draft :=
  ⟨#[Rule.hollow], [], []⟩

/- Take the next number for a rule that is still to come. -/
def reserve : Action RuleId :=
  modifyGet (fun d =>
    (d.rules.size, { d with rules := d.rules.push Rule.hollow }))

/- Put a rule in its place. -/
def assign (id : RuleId) (rule : Rule) : Action Unit :=
  modify (fun d => { d with rules := d.rules.setIfInBounds id rule })

/- Record what became of an entry. -/
def record (name : Bytes) (id? : Option RuleId) : Action Unit :=
  modify (fun d => { d with entries := (name, id?) :: d.entries })

/- Make a remark. -/
def remark (r : Diagnostic) : Action Unit :=
  modify (fun d => { d with remarks := r :: d.remarks })

/- What became of an entry, if it was referred to before. -/
def known? (d : Draft) (name : Bytes) : Option (Option RuleId) :=
  (d.entries.find? (fun e => e.1 == name)).map Prod.snd

/- Compile a pattern, with a remark if the engine rejects it. -/
def pattern (engine : Engine) (source : Bytes) : Action (Option Pattern) :=
  match engine.compile? source with
  | some p => pure (some p)
  | none => do
      remark (.rejectedPattern source)
      pure none

end Draft

------------------------------------------------------------
-- Declarations
------------------------------------------------------------

namespace Declaration

open Draft

/- Compile what a rule does. -/
def Kind.compile (engine : Engine) : Kind → Draft.Action Rule.Body
| .single source captures => do
    let p ← pattern engine source
    pure (.single p captures)
| .region openSource captures endSource endCaptures endLast => do
    let opening ← pattern engine openSource
    if BackReference.occurs endSource then
      pure
        (.region opening captures endSource .referring endCaptures
          endLast)
    else
      let closing ← pattern engine endSource
      pure
        (.region opening captures endSource (.fixed closing) endCaptures
          endLast)
| .container => pure .container

/- The rule of a header, without candidates so far. -/
def Header.rule
    (header : Header)
    (body : Rule.Body)
    (patterns : List RuleId) : Rule :=
  { name := header.name
    contentName := header.contentName
    body := body
    patterns := patterns
    candidates := [] }

/-
  The rule that a reference stands for.  Another grammar is not
  looked up.
-/
def target
    (scopeName : Bytes)
    (entry : Bytes → Draft.Action (Option RuleId)) :
    Reference → Draft.Action (Option RuleId)
| .whole => pure (some Grammar.rootId)
| .entry name => entry name
| .foreign name => do
    remark (.unresolvedReference name scopeName)
    pure none

mutual

/-
  Compile a declaration in a list of rules, where `entry` says
  what a named entry stands for.  There is no rule for what is
  no rule.
-/
def compile
    (engine : Engine)
    (scopeName : Bytes)
    (entry : Bytes → Draft.Action (Option RuleId)) :
    Declaration → Draft.Action (Option RuleId)
| .reference r => target scopeName entry r
| .rule header children => do
    let body ← header.kind.compile engine
    let id ← reserve
    let patterns ← compileAll engine scopeName entry children
    assign id (header.rule body patterns)
    pure (some id)
| .endless source => do
    remark (.beginWithoutEnd source)
    pure none
| .unnumbered => throw .captureNumber
| .invalid => pure none

/- Compile a list of declarations. -/
def compileAll
    (engine : Engine)
    (scopeName : Bytes)
    (entry : Bytes → Draft.Action (Option RuleId)) :
    List Declaration → Draft.Action (List RuleId)
| [] => pure []
| d :: ds => do
    let id? ← compile engine scopeName entry d
    let ids ← compileAll engine scopeName entry ds
    pure (id?.toList ++ ids)

end

/-
  Compile a declaration into a number that is already reserved.
  A reference becomes a container of what it refers to, and what
  is no rule stays a hollow container.
-/
def compileInto
    (engine : Engine)
    (scopeName : Bytes)
    (entry : Bytes → Draft.Action (Option RuleId))
    (id : RuleId) : Declaration → Draft.Action Unit
| .reference r => do
    let id? ← target scopeName entry r
    assign id { Rule.hollow with patterns := id?.toList }
| .rule header children => do
    let body ← header.kind.compile engine
    let patterns ← compileAll engine scopeName entry children
    assign id (header.rule body patterns)
| .endless source => remark (.beginWithoutEnd source)
| .unnumbered => throw .captureNumber
| .invalid => pure ()

end Declaration

------------------------------------------------------------
-- Grammars
------------------------------------------------------------

namespace GrammarDeclaration

open Draft

/-
  The rule of a named entry, which is compiled when it is first
  referred to.  Entries may refer to each other `depth` levels
  deep; each level takes an entry not referred to before, so the
  size of the repository is depth enough.
-/
def entry
    (engine : Engine)
    (d : GrammarDeclaration) :
    Nat → Bytes → Draft.Action (Option RuleId)
| 0, name => do
    pure ((← get).known? name).join
| depth + 1, name => do
    match (← get).known? name with
    | some id? => pure id?
    | none =>
        match d.entry? name with
        | none => do
            remark (.missingEntry name d.scopeName)
            record name none
            pure none
        | some declaration => do
            let id ← reserve
            record name (some id)
            declaration.compileInto engine d.scopeName
              (d.entry engine depth) id
            pure (some id)

/- Number and compile all rules that the root reaches. -/
def compile (engine : Engine) (d : GrammarDeclaration) :
    Draft.Action Unit := do
  let patterns ←
    Declaration.compileAll engine d.scopeName
      (d.entry engine (d.repository.length + 1)) d.patterns
  assign Grammar.rootId
    { Rule.hollow with name := d.scopeName, patterns := patterns }

end GrammarDeclaration

namespace Grammar

/- The grammar of a declaration, and the remarks made on it in order. -/
def ofDeclaration
    (engine : BoundedEngine)
    (d : GrammarDeclaration) :
    Except TableError Grammar × List Diagnostic :=
  match (d.compile engine.toEngine).run.run Draft.start with
  | (.ok (), draft) =>
      (.ok ⟨engine, d.scopeName, RuleTable.flatten draft.rules⟩,
        draft.remarks.reverse)
  | (.error e, draft) => (.error e, draft.remarks.reverse)

/-
  The grammar that a JSON value denotes, if it denotes one, and
  the remarks made on it.
-/
def ofJson
    (engine : BoundedEngine)
    (value : Json) :
    Except TableError (Option Grammar) × List Diagnostic :=
  match GrammarDeclaration.ofJson? value with
  | none => (.ok none, [])
  | some d =>
      let (result, remarks) := ofDeclaration engine d
      (result.map some, remarks)

end Grammar

end Marginalia

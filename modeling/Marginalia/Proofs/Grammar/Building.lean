import Marginalia.Proofs.Grammar.Overflow

/-
  This file proves that a grammar is built without a bound on how
  deep its entries refer to each other.

  The table of a grammar is compiled with a depth for references,
  and a rule has its place for a number.  Here the same is done
  in the open: a rule carries the number that it was given, and
  a reference is followed as deep as it leads, so that building
  might never end.  It does end.  Whatever the table was, one run
  does what the other does, as long as fewer entries are unknown
  than the depth allows for; and an entry that is compiled is not
  unknown any more.

  Key definitions include:
    * `NumberedRule`, `NumberedGrammar`
    * `NumberedDraft`, `NumberedDraft.Action`
    * `GrammarDeclaration.build`
    * `NumberedGrammar.ofJson?`
    * `NumberedDraft.Mirrors`
  The main statements are:
    * `NumberedDraft.mirrors_bind`
    * `GrammarDeclaration.mirrors_buildEntry`
    * `NumberedGrammar.ofJson?_eq`
-/

namespace Marginalia

------------------------------------------------------------
-- Rules with Their Numbers
------------------------------------------------------------

/- A rule that carries its number. -/
structure NumberedRule extends Rule where
  id : RuleId
deriving Repr, Inhabited

/- A grammar whose rules carry their numbers. -/
structure NumberedGrammar where
  engine : BoundedEngine
  scopeName : Bytes
  rules : Array NumberedRule
deriving Inhabited

/- The rules of a table with their places for numbers. -/
def RuleTable.numbered (rules : Array Rule) : Array NumberedRule :=
  rules.mapIdx (fun id rule => { rule with id := id })

/- The grammar with the places of its rules for numbers. -/
def Grammar.numbered (grammar : Grammar) : NumberedGrammar :=
  ⟨grammar.engine, grammar.scopeName,
    RuleTable.numbered grammar.rules⟩

namespace RuleTable

/- The rules as they are without their numbers. -/
theorem map_toRule_numbered
    (rules : Array Rule) :
    (numbered rules).map NumberedRule.toRule = rules := by
  apply Array.ext_getElem?
  intro id
  simp [numbered, Option.map_map, Function.comp_def]

/- A rule that is reserved. -/
theorem numbered_push
    (rules : Array Rule)
    (rule : Rule) :
    numbered (rules.push rule) =
      (numbered rules).push { rule with id := rules.size } := by
  unfold numbered
  rw [Array.mapIdx_push]

/- A rule that is put in its place. -/
theorem numbered_setIfInBounds
    (rules : Array Rule)
    (id : RuleId)
    (rule : Rule) :
    numbered (rules.setIfInBounds id rule) =
      (numbered rules).setIfInBounds id { rule with id := id } := by
  unfold numbered
  rw [Array.mapIdx_setIfInBounds]

end RuleTable

------------------------------------------------------------
-- Tables in the Making
------------------------------------------------------------

/- A table in the making whose rules carry their numbers. -/
structure NumberedDraft where
  rules : Array NumberedRule
  entries : List (Bytes × Option RuleId)
  remarks : List Diagnostic
deriving Inhabited

/-
  A step that changes such a table, and may fail.  Its outcome is
  `none` if the step never ends.
-/
abbrev NumberedDraft.Action (α : Type) :=
  ExceptT TableError (StateT NumberedDraft Option) α

/- The table in the making with the places of its rules for numbers. -/
def Draft.numbered (draft : Draft) : NumberedDraft :=
  ⟨RuleTable.numbered draft.rules, draft.entries, draft.remarks⟩

namespace NumberedDraft

/- The table with the root reserved. -/
def start : NumberedDraft :=
  ⟨#[{ Rule.hollow with id := Grammar.rootId }], [], []⟩

/- The table in the making without the numbers. -/
def plain (draft : NumberedDraft) : Draft :=
  ⟨draft.rules.map NumberedRule.toRule, draft.entries, draft.remarks⟩

/- Take the next number for a rule, and write it there. -/
def reserve : Action RuleId :=
  modifyGet (fun d =>
    (d.rules.size,
      { d with
        rules :=
          d.rules.push { Rule.hollow with id := d.rules.size } }))

/- Put a rule with its number in its place. -/
def assign (id : RuleId) (rule : Rule) : Action Unit :=
  modify (fun d =>
    { d with
      rules := d.rules.setIfInBounds id { rule with id := id } })

/- Record what became of an entry. -/
def record (name : Bytes) (id? : Option RuleId) : Action Unit :=
  modify (fun d => { d with entries := (name, id?) :: d.entries })

/- Make a remark. -/
def remark (r : Diagnostic) : Action Unit :=
  modify (fun d => { d with remarks := r :: d.remarks })

/- Compile what a rule does; only remarks are left of it. -/
def compileKind
    (engine : Engine)
    (kind : Declaration.Kind) : Action Rule.Body :=
  fun draft =>
    let (result, next) := (kind.compile engine).run.run draft.plain
    some (result, { draft with remarks := next.remarks })

end NumberedDraft

------------------------------------------------------------
-- Building
------------------------------------------------------------

namespace GrammarDeclaration

open NumberedDraft

mutual

/- Build a declaration in a list of rules. -/
def build
    (engine : Engine)
    (d : GrammarDeclaration)
    (c : Declaration) : NumberedDraft.Action (Option RuleId) :=
  match c with
  | .reference r => d |>.follow engine r
  | .rule header children => do
      let body ← compileKind engine header.kind
      let id ← reserve
      let patterns ← d |>.buildAll engine children
      assign id (header.rule body patterns)
      pure (some id)
  | .endless source => do
      remark (.beginWithoutEnd source)
      pure none
  | .unnumbered => throw .captureNumber
  | .invalid => pure none
partial_fixpoint

/- Build a list of declarations. -/
def buildAll
    (engine : Engine)
    (d : GrammarDeclaration)
    (cs : List Declaration) : NumberedDraft.Action (List RuleId) :=
  match cs with
  | [] => pure []
  | c :: cs => do
      let id? ← d |>.build engine c
      let ids ← d |>.buildAll engine cs
      pure (id?.toList ++ ids)
partial_fixpoint

/- Build a declaration into a number that is already reserved. -/
def buildInto
    (engine : Engine)
    (d : GrammarDeclaration)
    (id : RuleId)
    (c : Declaration) : NumberedDraft.Action Unit :=
  match c with
  | .reference r => do
      let id? ← d |>.follow engine r
      assign id { Rule.hollow with patterns := id?.toList }
  | .rule header children => do
      let body ← compileKind engine header.kind
      let patterns ← d |>.buildAll engine children
      assign id (header.rule body patterns)
  | .endless source => remark (.beginWithoutEnd source)
  | .unnumbered => throw .captureNumber
  | .invalid => pure ()
partial_fixpoint

/- The rule that a reference stands for. -/
def follow
    (engine : Engine)
    (d : GrammarDeclaration)
    (r : Reference) : NumberedDraft.Action (Option RuleId) :=
  match r with
  | .whole => pure (some Grammar.rootId)
  | .entry name => d |>.buildEntry engine name
  | .foreign name => do
      remark (.unresolvedReference name d.scopeName)
      pure none
partial_fixpoint

/-
  The rule of a named entry, which is built when it is first
  referred to.  Its number is recorded before that.
-/
def buildEntry
    (engine : Engine)
    (d : GrammarDeclaration)
    (name : Bytes) : NumberedDraft.Action (Option RuleId) := do
  match (← get).plain.known? name with
  | some id? => pure id?
  | none =>
      match d.entry? name with
      | none => do
          remark (.missingEntry name d.scopeName)
          record name none
          pure none
      | some c => do
          let id ← reserve
          record name (some id)
          d |>.buildInto engine id c
          pure (some id)
partial_fixpoint

end

/- Number and build all rules that the root reaches. -/
def buildRoot
    (engine : Engine)
    (d : GrammarDeclaration) : NumberedDraft.Action Unit := do
  let patterns ← d.buildAll engine d.patterns
  assign Grammar.rootId
    { Rule.hollow with name := d.scopeName, patterns := patterns }

end GrammarDeclaration

namespace NumberedGrammar

/- The rules with the candidates of each of them. -/
def flatten (rules : Array NumberedRule) : Array NumberedRule :=
  rules.map (fun rule =>
    { rule with
      candidates :=
        RuleTable.candidates (rules.map NumberedRule.toRule)
          rule.toRule })

/-
  The grammar of a declaration, and the remarks made on it, if
  building it ends.
-/
def ofDeclaration?
    (engine : BoundedEngine)
    (d : GrammarDeclaration) :
    Option (Except TableError NumberedGrammar × List Diagnostic) :=
  match (d.buildRoot engine.toEngine).run.run NumberedDraft.start with
  | none => none
  | some (.ok (), draft) =>
      some
        (.ok ⟨engine, d.scopeName, flatten draft.rules⟩,
          draft.remarks.reverse)
  | some (.error e, draft) => some (.error e, draft.remarks.reverse)

/-
  The grammar that a JSON value denotes, if it denotes one, and
  the remarks made on it, if building it ends.
-/
def ofJson?
    (engine : BoundedEngine)
    (value : Json) :
    Option
      (Except TableError (Option NumberedGrammar) × List Diagnostic) :=
  match GrammarDeclaration.ofJson? value with
  | none => some (.ok none, [])
  | some d =>
      (ofDeclaration? engine d).map (fun outcome =>
        (outcome.1.map some, outcome.2))

end NumberedGrammar

------------------------------------------------------------
-- The Same Outcome
------------------------------------------------------------

namespace Draft

variable (draft : Draft)

@[simp]
theorem plain_numbered : draft.numbered.plain = draft := by
  unfold numbered NumberedDraft.plain
  rw [RuleTable.map_toRule_numbered]

@[simp]
theorem numbered_start : start.numbered = NumberedDraft.start := by
  simp [start, numbered, NumberedDraft.start, RuleTable.numbered,
    Grammar.rootId]

end Draft

namespace NumberedDraft

variable {α β : Type}
variable {engine : Engine}
variable {draft : Draft}

/-
  From a table in the making, one action ends as another does,
  up to the numbers that rules carry.
-/
def Mirrors
    (action : NumberedDraft.Action α)
    (model : Draft.Action α)
    (draft : Draft) : Prop :=
  action.run.run draft.numbered =
    some (Prod.map id Draft.numbered (model.run.run draft))

theorem mirrors_pure
    (value : α) :
    Mirrors (pure value) (pure value) draft :=
  rfl

theorem mirrors_throw
    (e : TableError) :
    Mirrors (throw e : NumberedDraft.Action α) (throw e) draft :=
  rfl

/-
  Of two actions in a row, the second is of interest only for
  what the first one comes to.
-/
theorem mirrors_bind
    {action : NumberedDraft.Action α}
    {model : Draft.Action α}
    {k : α → NumberedDraft.Action β}
    {k' : α → Draft.Action β}
    (hAction : Mirrors action model draft)
    (hRest :
      ∀ {value : α} {next : Draft},
        Draft.Runs model draft value next →
          Mirrors (k value) (k' value) next) :
    Mirrors (action >>= k) (model >>= k') draft := by
  have hRun :
      (action >>= k).run.run draft.numbered =
        (action.run.run draft.numbered).bind
          (fun outcome =>
            (ExceptT.bindCont k outcome.1 :
              StateT NumberedDraft Option
                (Except TableError β)).run outcome.2) := rfl
  have hModel :
      (model >>= k').run.run draft =
        (ExceptT.bindCont k' (model.run.run draft).1 :
          StateM Draft (Except TableError β)).run
            (model.run.run draft).2 := rfl
  unfold Mirrors
  rw [hRun, hModel, hAction]
  rcases hOutcome : model.run.run draft with ⟨result, next⟩
  cases result with
  | ok value => exact hRest hOutcome
  | error e => rfl

/- The table in the making is looked at. -/
theorem mirrors_get_bind
    {k : NumberedDraft → NumberedDraft.Action β}
    {k' : Draft → Draft.Action β}
    (hRest : Mirrors (k draft.numbered) (k' draft) draft) :
    Mirrors (get >>= k) (get >>= k') draft :=
  hRest

theorem mirrors_reserve :
    Mirrors reserve Draft.reserve draft := by
  unfold Mirrors
  have hModel :
      Draft.reserve.run.run draft =
        (.ok draft.rules.size,
          { draft with rules := draft.rules.push Rule.hollow }) := rfl
  rw [hModel]
  have hSize : (RuleTable.numbered draft.rules).size = draft.rules.size := by
    simp [RuleTable.numbered]
  simp only [Prod.map, Draft.numbered, RuleTable.numbered_push, id]
  rw [← hSize]
  rfl

theorem mirrors_assign
    (id : RuleId)
    (rule : Rule) :
    Mirrors (assign id rule) (Draft.assign id rule) draft := by
  unfold Mirrors
  have hModel :
      (Draft.assign id rule).run.run draft =
        (.ok (),
          { draft with
            rules := draft.rules.setIfInBounds id rule }) := rfl
  rw [hModel]
  simp only [Prod.map, Draft.numbered, RuleTable.numbered_setIfInBounds]
  rfl

theorem mirrors_record
    (name : Bytes)
    (id? : Option RuleId) :
    Mirrors (record name id?) (Draft.record name id?) draft :=
  rfl

theorem mirrors_remark
    (r : Diagnostic) :
    Mirrors (remark r) (Draft.remark r) draft :=
  rfl

/- What a kind does is compiled alike. -/
theorem mirrors_compileKind
    (kind : Declaration.Kind) :
    Mirrors (compileKind engine kind) (kind.compile engine) draft := by
  have hSucceeds : Draft.Succeeds (kind.compile engine) :=
    Draft.succeeds_kind kind
  rcases hSucceeds draft with ⟨body, next, hRuns⟩
  have hSame := (Draft.sameTable_of_runs_compile hRuns).2
  have hRun : (kind.compile engine).run.run draft = (.ok body, next) :=
    hRuns
  have hKind :
      (compileKind engine kind).run.run draft.numbered =
        some
          (((kind.compile engine).run.run draft.numbered.plain).1,
            { draft.numbered with
              remarks :=
                ((kind.compile engine).run.run
                  draft.numbered.plain).2.remarks }) :=
    rfl
  unfold Mirrors
  rw [hKind, Draft.plain_numbered, hRun]
  simp only [Prod.map, Draft.numbered, hSame.rules_eq,
    hSame.entries_eq, id]

end NumberedDraft

------------------------------------------------------------
-- The Same Grammar
------------------------------------------------------------

namespace GrammarDeclaration

open NumberedDraft

variable {engine : Engine}
variable {d : GrammarDeclaration}
variable {depth : Nat}
variable {draft : Draft}

/-
  Entries are built as they are compiled, as long as fewer than
  `depth` of them are unknown.
-/
def Mirroring
    (engine : Engine)
    (d : GrammarDeclaration)
    (depth : Nat) : Prop :=
  ∀ {name : Bytes} {draft : Draft},
    (draft.unknown d).length < depth →
      Mirrors (d.buildEntry engine name) (d.entry engine depth name) draft

/- A reference is followed alike. -/
theorem mirrors_follow
    (hMirroring : d.Mirroring engine depth)
    (hDepth : (draft.unknown d).length < depth)
    (r : Reference) :
    Mirrors (d.follow engine r)
      (Declaration.target d.scopeName (d.entry engine depth) r) draft := by
  rw [follow.eq_def]
  cases r with
  | whole => exact mirrors_pure _
  | entry name => exact hMirroring hDepth
  | foreign name =>
      exact mirrors_bind (mirrors_remark _) (fun _ => mirrors_pure _)

/- What a kind does makes no entry unknown. -/
theorem length_unknown_of_runs_kind
    {kind : Declaration.Kind}
    {body : Rule.Body}
    {next : Draft}
    (hDepth : (draft.unknown d).length < depth)
    (hRuns : Draft.Runs (kind.compile engine) draft body next) :
    (next.unknown d).length < depth := by
  have hSame := (Draft.sameTable_of_runs_compile hRuns).2
  refine Nat.lt_of_le_of_lt (Draft.length_unknown_le ?_) hDepth
  intro name _
  exact Draft.known?_of_sameTable hSame name

mutual

/- A declaration is built as it is compiled. -/
theorem mirrors_build
    (hMirroring : d.Mirroring engine depth) :
    ∀ (c : Declaration) {draft : Draft},
      (draft.unknown d).length < depth →
        Mirrors (d.build engine c)
          (Declaration.compile engine d.scopeName
            (d.entry engine depth) c)
          draft
| .reference r, draft, hDepth => by
    rw [build.eq_def]
    exact mirrors_follow hMirroring hDepth r
| .rule header children, draft, hDepth => by
    rw [build.eq_def]
    apply mirrors_bind (mirrors_compileKind header.kind)
    intro body first hBody
    have hFirst := length_unknown_of_runs_kind hDepth hBody
    apply mirrors_bind mirrors_reserve
    intro id second hReserve
    rcases Draft.runs_reserve_iff.mp hReserve with ⟨_, rfl⟩
    have hSecond : (first.reserved.unknown d).length < depth := hFirst
    apply mirrors_bind (mirrors_buildAll hMirroring children hSecond)
    intro patterns last _
    exact mirrors_bind (mirrors_assign _ _) (fun _ => mirrors_pure _)
| .endless source, draft, _ => by
    rw [build.eq_def]
    exact mirrors_bind (mirrors_remark _) (fun _ => mirrors_pure _)
| .unnumbered, draft, _ => by
    rw [build.eq_def]
    exact mirrors_throw _
| .invalid, draft, _ => by
    rw [build.eq_def]
    exact mirrors_pure _

/- A list of declarations is built as it is compiled. -/
theorem mirrors_buildAll
    (hMirroring : d.Mirroring engine depth) :
    ∀ (cs : List Declaration) {draft : Draft},
      (draft.unknown d).length < depth →
        Mirrors (d.buildAll engine cs)
          (Declaration.compileAll engine d.scopeName
            (d.entry engine depth) cs)
          draft
| [], draft, _ => by
    rw [buildAll.eq_def]
    exact mirrors_pure _
| c :: cs, draft, hDepth => by
    rw [buildAll.eq_def]
    apply mirrors_bind (mirrors_build hMirroring c hDepth)
    intro id? middle hFirst
    -- What was known is known after the first one too.
    have hSettles :=
      (Declaration.settles_compile (settles_entry depth) c
        (Nat.le_of_lt hDepth) hFirst).1
    have hMiddle : (middle.unknown d).length < depth :=
      Nat.lt_of_le_of_lt (Draft.length_unknown_le hSettles.known_eq)
        hDepth
    apply mirrors_bind (mirrors_buildAll hMirroring cs hMiddle)
    exact fun _ => mirrors_pure _

end

/- An entry that was reserved is built as it is compiled. -/
theorem mirrors_buildInto
    (hMirroring : d.Mirroring engine depth)
    (hDepth : (draft.unknown d).length < depth)
    (id : RuleId)
    (c : Declaration) :
    Mirrors (d.buildInto engine id c)
      (Declaration.compileInto engine d.scopeName
        (d.entry engine depth) id c)
      draft := by
  rw [buildInto.eq_def]
  cases c with
  | reference r =>
      exact
        mirrors_bind (mirrors_follow hMirroring hDepth r)
          (fun _ => mirrors_assign _ _)
  | rule header children =>
      apply mirrors_bind (mirrors_compileKind header.kind)
      intro body first hBody
      have hFirst := length_unknown_of_runs_kind hDepth hBody
      exact
        mirrors_bind (mirrors_buildAll hMirroring children hFirst)
          (fun _ => mirrors_assign _ _)
  | endless source => exact mirrors_remark _
  | unnumbered => exact mirrors_throw _
  | invalid => exact mirrors_pure _

/-
  An entry is built as it is compiled.  The induction is on the
  depth: while an entry is built, one entry fewer is unknown.
-/
theorem mirrors_buildEntry :
    ∀ depth : Nat, d.Mirroring engine depth
| 0, name, draft, hDepth => absurd hDepth (Nat.not_lt_zero _)
| depth + 1, name, draft, hDepth => by
    rw [buildEntry.eq_def, entry]
    apply mirrors_get_bind
    rw [Draft.plain_numbered]
    cases hKnown : draft.known? name with
    | some id? => exact mirrors_pure _
    | none =>
        cases hEntry : d.entry? name with
        | none =>
            apply mirrors_bind (mirrors_remark _)
            intro _ _ _
            exact
              mirrors_bind (mirrors_record _ _) (fun _ => mirrors_pure _)
        | some c =>
            apply mirrors_bind mirrors_reserve
            intro id middle hReserve
            rcases Draft.runs_reserve_iff.mp hReserve with ⟨rfl, rfl⟩
            apply mirrors_bind (mirrors_record _ _)
            intro _ next hRecord
            cases Draft.runs_record_iff.mp hRecord
            have hLess :
                ((draft.reservedFor name).unknown d).length <
                  (draft.unknown d).length :=
              Draft.length_unknown_lt
                (Draft.known?_eq_of_reservedFor hKnown)
                (mem_names_of_declared hEntry) hKnown
                (by rw [Draft.known?_reservedFor, if_pos rfl]; rfl)
            have hBelow :
                ((draft.reservedFor name).unknown d).length < depth := by
              omega
            exact
              mirrors_bind
                (mirrors_buildInto (mirrors_buildEntry depth) hBelow
                  draft.rules.size c)
                (fun _ => mirrors_pure _)

end GrammarDeclaration

namespace NumberedGrammar

/- The candidates do not depend on the numbers that rules carry. -/
theorem flatten_numbered
    (rules : Array Rule) :
    flatten (RuleTable.numbered rules) =
      RuleTable.numbered (RuleTable.flatten rules) := by
  unfold flatten
  rw [RuleTable.map_toRule_numbered]
  apply Array.ext_getElem?
  intro id
  simp [RuleTable.numbered, RuleTable.flatten, Option.map_map,
    Function.comp_def]

/- Building the rules that the root reaches ends. -/
theorem mirrors_buildRoot
    (engine : Engine)
    (d : GrammarDeclaration) :
    NumberedDraft.Mirrors (d.buildRoot engine) (d.compile engine)
      Draft.start := by
  have hDepth :
      (Draft.start.unknown d).length < d.repository.length + 1 := by
    have hNames :=
      List.length_filter_le
        (fun name => (Draft.start.known? name).isNone)
        (d.repository.map Prod.fst)
    rw [List.length_map] at hNames
    exact Nat.lt_succ_of_le hNames
  exact
    NumberedDraft.mirrors_bind
      (GrammarDeclaration.mirrors_buildAll
        (GrammarDeclaration.mirrors_buildEntry _) d.patterns hDepth)
      (fun _ => NumberedDraft.mirrors_assign _ _)

/- Building a declaration ends, with the grammar that it denotes. -/
theorem ofDeclaration?_eq
    (engine : BoundedEngine)
    (d : GrammarDeclaration) :
    ofDeclaration? engine d =
      some
        ((Grammar.ofDeclaration engine d).1.map Grammar.numbered,
          (Grammar.ofDeclaration engine d).2) := by
  have hMirrors := mirrors_buildRoot engine.toEngine d
  unfold NumberedDraft.Mirrors at hMirrors
  rw [Draft.numbered_start] at hMirrors
  unfold ofDeclaration? Grammar.ofDeclaration
  rw [hMirrors]
  rcases (d.compile engine.toEngine).run.run Draft.start with
    ⟨result, draft⟩
  cases result with
  | error e => rfl
  | ok value =>
      simp only [Prod.map, Draft.numbered, flatten_numbered, id]
      rfl

/-
  Building the grammar of a JSON value ends, whatever the value
  is.  The grammar is the one that the value denotes, with the
  places of its rules for numbers.
-/
theorem ofJson?_eq
    (engine : BoundedEngine)
    (value : Json) :
    ofJson? engine value =
      some
        ((Grammar.ofJson engine value).1.map
            (fun grammar? => grammar?.map Grammar.numbered),
          (Grammar.ofJson engine value).2) := by
  unfold ofJson? Grammar.ofJson
  cases GrammarDeclaration.ofJson? value with
  | none => rfl
  | some d =>
      dsimp only
      rw [ofDeclaration?_eq]
      rcases Grammar.ofDeclaration engine d with ⟨result, remarks⟩
      cases result with
      | error e => rfl
      | ok grammar => rfl

end NumberedGrammar

end Marginalia

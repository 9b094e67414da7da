import Marginalia.Proofs.Grammar.Correspondence
import Marginalia.Proofs.Grammar.Numbering
import Marginalia.Proofs.Token.Termination

/-
  This file proves what the stacks are like that lines of a
  compiled grammar leave behind: the outermost frame is that of
  the document, and every other one is that of a region of the
  grammar, opened inside the frame below it.

  From this it follows that all rules that a step looks up are
  in the table, and that the scopes of all tokens begin with the
  scope of the grammar.

  Key definitions include:
    * `Grammar.Sound`
    * `Frame.OpenedIn`
    * `RuleStack.WellFormed`
    * `LineState.lookups`
  The main statements are:
    * `Grammar.sound_of_ofJson`
    * `LineState.wellFormed_of_moves`
    * `LineState.step_congr`
    * `tokenizeLine?_wellFormed`
-/

namespace Marginalia

------------------------------------------------------------
-- Compiled Grammars
------------------------------------------------------------

/- The source of the end of a region. -/
def Rule.endSource (rule : Rule) : Bytes :=
  match rule.body with
  | .region _ _ source _ _ _ => source
  | _ => []

namespace Grammar

/-
  What is asked of the table of a grammar: the root is in it, as
  are all candidates, and an end is compiled when the grammar is,
  unless its source refers to the begin.
-/
structure Sound (grammar : Grammar) : Prop where
  root_lt : rootId < grammar.rules.size
  candidates_lt :
    ∀ id : Nat, ∀ other ∈ (grammar.rule id).candidates,
      other < grammar.rules.size
  ending_fixed :
    ∀ {id : RuleId} {opening : Option Pattern}
      {captures endCaptures : CaptureNames} {endSource : Bytes}
      {ending : Ending} {endLast : Bool},
      (grammar.rule id).body =
          .region opening captures endSource ending endCaptures
            endLast →
        BackReference.occurs endSource = false →
          ∃ pattern, ending = .fixed pattern

/- The end of a region is compiled unless its source refers to the begin. -/
theorem ending_of_laidOut
    {engine : BoundedEngine}
    {d : GrammarDeclaration}
    {sites : List Site}
    {rules : Array Rule}
    {id : RuleId}
    {opening : Option Pattern}
    {captures endCaptures : CaptureNames}
    {endSource : Bytes}
    {ending : Ending}
    {endLast : Bool}
    (hLaid : RuleTable.LaidOut engine.toEngine d sites rules)
    (hBody :
      (rule ⟨engine, d.scopeName, RuleTable.flatten rules⟩ id).body =
        .region opening captures endSource ending endCaptures endLast) :
    ending =
      if BackReference.occurs endSource then .referring
      else .fixed (engine.compile? endSource) := by
  change (RuleTable.ruleAt (RuleTable.flatten rules) id).body = _ at hBody
  by_cases hLt : id < rules.size
  · have hSite : id < sites.length := by
      rw [hLaid.length_eq]
      exact hLt
    rcases hLaid.settled (List.getElem?_eq_getElem hSite) with
      ⟨c, patterns, _, hWritten, _⟩
    rw [ruleAt_flatten hLt, RuleTable.ruleAt,
      Array.getD_eq_getD_getElem?, hWritten] at hBody
    cases hKind : c.header.kind with
    | single source names =>
        simp [Declaration.Header.rule, Declaration.Kind.body, hKind]
          at hBody
    | container =>
        simp [Declaration.Header.rule, Declaration.Kind.body, hKind]
          at hBody
    | region openSource names source endNames last =>
        simp only [Declaration.Header.rule, Declaration.Kind.body,
          hKind, Option.getD_some, Rule.Body.region.injEq] at hBody
        rcases hBody with ⟨_, _, rfl, hEnding, _, _⟩
        exact hEnding.symm
  · rw [ruleAt_flatten_of_le (Nat.le_of_not_lt hLt)] at hBody
    cases hBody

/- A grammar whose rules are laid out is sound. -/
theorem sound_of_laidOut
    {engine : BoundedEngine}
    {d : GrammarDeclaration}
    {sites : List Site}
    {rules : Array Rule}
    (hLaid : RuleTable.LaidOut engine.toEngine d sites rules) :
    Sound ⟨engine, d.scopeName, RuleTable.flatten rules⟩ where
  root_lt := by
    have hLt : rootId < sites.length :=
      (List.getElem?_eq_some_iff.mp hLaid.root).1
    rw [hLaid.length_eq] at hLt
    simpa [RuleTable.flatten] using hLt
  candidates_lt := by
    intro id other hOther
    change other ∈ (RuleTable.ruleAt (RuleTable.flatten rules) id).candidates
      at hOther
    by_cases hLt : id < rules.size
    · rw [ruleAt_flatten hLt] at hOther
      have hRange := (RuleTable.of_mem_collect _ _ hOther).1
      simpa [RuleTable.flatten] using hRange
    · rw [ruleAt_flatten_of_le (Nat.le_of_not_lt hLt)] at hOther
      cases hOther
  ending_fixed := by
    intro id opening captures endCaptures endSource ending endLast hBody
      hOccurs
    have hEnding := ending_of_laidOut hLaid hBody
    rw [hOccurs] at hEnding
    exact ⟨_, hEnding⟩

/- A grammar that is compiled is sound. -/
theorem sound_of_ofJson
    {compiler : BoundedEngine}
    {value : Json}
    {grammar : Grammar}
    {remarks : List Diagnostic}
    (hBuilt : ofJson compiler value = (.ok (some grammar), remarks)) :
    grammar.Sound := by
  rcases exists_ofDeclaration_eq hBuilt with ⟨d, _, hMade⟩
  rcases exists_laidOut hMade with ⟨sites, rules, hLaid, rfl⟩
  exact sound_of_laidOut hLaid

end Grammar

------------------------------------------------------------
-- Stacks
------------------------------------------------------------

/-
  A frame is that of a region of the grammar, opened inside
  another frame.  It has an end, and the names of the region are
  added to the scopes of what is around it.  The source of the
  end is that of the rule, unless that refers to the begin.
-/
structure Frame.OpenedIn
    (grammar : Grammar)
    (frame outer : Frame) : Prop where
  rule_lt : frame.ruleId < grammar.rules.size
  isRegion : (grammar.rule frame.ruleId).isRegion = true
  ending : frame.ending.isSome = true
  nameScopes_eq :
    frame.nameScopes =
      LineState.withScope outer.contentScopes
        (grammar.rule frame.ruleId).name
  contentScopes_eq :
    frame.contentScopes =
      LineState.withScope frame.nameScopes
        (grammar.rule frame.ruleId).contentName
  endSource_eq :
    BackReference.occurs (grammar.rule frame.ruleId).endSource = false →
      frame.endSource = (grammar.rule frame.ruleId).endSource

namespace RuleStack

/-
  The outermost frame is that of the document, of depth one, and
  every other one was opened inside the frame below it and is one
  deeper.
-/
inductive WellFormed (grammar : Grammar) : RuleStack → Prop where
| initial
    (hDepth : (initial grammar).depth = 1) :
    WellFormed grammar (initial grammar)
| region
    {frame outer : Frame}
    {below : List Frame}
    (hOuter : WellFormed grammar ⟨outer :: below⟩)
    (hFrame : frame.OpenedIn grammar outer)
    (hDepth : frame.depth = outer.depth + 1) :
    WellFormed grammar ⟨frame :: outer :: below⟩

variable {grammar : Grammar}
variable {frame : Frame}
variable {below : List Frame}

/- What is left when the innermost region is closed. -/
theorem wellFormed_pop
    {stack : RuleStack}
    (hStack : WellFormed grammar stack) :
    WellFormed grammar stack.pop := by
  cases hStack with
  | initial hDepth => exact .initial hDepth
  | region hOuter hFrame hDepth => exact hOuter

/- There is a frame at least. -/
theorem frames_ne_nil
    {stack : RuleStack}
    (hStack : WellFormed grammar stack) :
    stack.frames ≠ [] := by
  cases hStack with
  | initial => exact List.cons_ne_nil _ _
  | region => exact List.cons_ne_nil _ _

/- The rule of the innermost frame is in the table. -/
theorem rule_lt_of_wellFormed
    (hSound : grammar.Sound)
    (hStack : WellFormed grammar ⟨frame :: below⟩) :
    frame.ruleId < grammar.rules.size := by
  cases hStack with
  | initial => exact hSound.root_lt
  | region hOuter hFrame hDepth => exact hFrame.rule_lt

end RuleStack

/- The scopes begin with that of the grammar. -/
def Grammar.Heads (grammar : Grammar) (scopes : List Scope) : Prop :=
  scopes.head? = some grammar.scopeName

namespace Grammar

variable {grammar : Grammar}
variable {scopes : List Scope}

/- More scopes may follow. -/
theorem heads_append
    (hScopes : grammar.Heads scopes)
    (more : List Scope) :
    grammar.Heads (scopes ++ more) := by
  unfold Heads at hScopes ⊢
  rw [List.head?_append, hScopes]
  rfl

theorem heads_withScope
    (hScopes : grammar.Heads scopes)
    (name : Scope) :
    grammar.Heads (LineState.withScope scopes name) := by
  unfold LineState.withScope
  split
  · exact hScopes
  · exact heads_append hScopes [name]

end Grammar

namespace RuleStack

variable {grammar : Grammar}
variable {frame : Frame}
variable {below : List Frame}

/-
  The scopes of the innermost frame begin with that of the
  grammar.  The induction is on the frames below it.
-/
theorem heads_of_wellFormed
    (hStack : WellFormed grammar ⟨frame :: below⟩) :
    grammar.Heads frame.nameScopes ∧
      grammar.Heads frame.contentScopes := by
  induction below generalizing frame with
  | nil =>
      cases hStack with
      | initial => exact ⟨rfl, rfl⟩
  | cons outer below ih =>
      cases hStack with
      | region hOuter hFrame hDepth =>
          have hNames : grammar.Heads frame.nameScopes := by
            rw [hFrame.nameScopes_eq]
            exact Grammar.heads_withScope (ih hOuter).2 _
          refine ⟨hNames, ?_⟩
          rw [hFrame.contentScopes_eq]
          exact Grammar.heads_withScope hNames _

end RuleStack

------------------------------------------------------------
-- Tokens
------------------------------------------------------------

/-
  What holds of the scopes of all tokens, and of those of a part
  that is added, holds of the scopes of all tokens then.
-/
theorem Tokens.forall_push
    {P : List Scope → Prop}
    {tokens : List Token}
    {scopes : List Scope}
    (hTokens : ∀ token ∈ tokens, P token.scopes)
    (hScopes : P scopes)
    (start stop : Nat) :
    ∀ token ∈ push tokens start stop scopes, P token.scopes := by
  unfold push
  split
  · exact hTokens
  · split
    · intro token hToken
      rw [List.mem_singleton.mp hToken]
      exact hScopes
    · next last before =>
        split
        · intro token hToken
          rcases List.mem_cons.mp hToken with rfl | hBefore
          · exact hTokens last List.mem_cons_self
          · exact hTokens token (List.mem_cons_of_mem _ hBefore)
        · intro token hToken
          rcases List.mem_cons.mp hToken with rfl | hBefore
          · exact hScopes
          · exact hTokens token hBefore

/- The same of the pieces of a match, whatever names they get. -/
theorem Captures.forall_emitPieces
    {P : List Scope → Prop}
    {base : List Scope}
    (m : Match)
    (hBase : ∀ names, P (base ++ names))
    (spans : List NamedSpan)
    (cuts : List Nat) :
    ∀ {tokens : List Token},
      (∀ token ∈ tokens, P token.scopes) →
        ∀ token ∈ emitPieces m base spans cuts tokens,
          P token.scopes := by
  induction cuts with
  | nil =>
      intro tokens hTokens
      exact hTokens
  | cons a rest ih =>
      intro tokens hTokens
      cases rest with
      | nil => exact hTokens
      | cons b rest =>
          unfold emitPieces
          apply ih
          split
          · exact hTokens
          · exact Tokens.forall_push hTokens (hBase _) a b

/- The same of a coloured match. -/
theorem Captures.forall_emit
    {P : List Scope → Prop}
    {base : List Scope}
    {tokens : List Token}
    (m : Match)
    (hTokens : ∀ token ∈ tokens, P token.scopes)
    (hBase : ∀ names, P (base ++ names))
    (captures : CaptureNames) :
    ∀ token ∈ emit m base captures tokens, P token.scopes := by
  unfold emit
  split
  · exact hTokens
  · exact forall_emitPieces m hBase _ _ hTokens

/- The scopes of all tokens begin with that of the grammar. -/
def Tokens.Headed (grammar : Grammar) (tokens : List Token) : Prop :=
  ∀ token ∈ tokens, grammar.Heads token.scopes

section Tokens

variable {grammar : Grammar}
variable {tokens : List Token}

/- A part that is added has such scopes too. -/
theorem Tokens.headed_push
    {scopes : List Scope}
    (hTokens : Headed grammar tokens)
    (hScopes : grammar.Heads scopes)
    (start stop : Nat) :
    Headed grammar (push tokens start stop scopes) :=
  forall_push hTokens hScopes start stop

/- A coloured match has such scopes. -/
theorem Captures.headed_emit
    {base : List Scope}
    (m : Match)
    (hTokens : Tokens.Headed grammar tokens)
    (hBase : grammar.Heads base)
    (captures : CaptureNames) :
    Tokens.Headed grammar (emit m base captures tokens) :=
  forall_emit m hTokens (Grammar.heads_append hBase) captures

end Tokens

------------------------------------------------------------
-- Steps
------------------------------------------------------------

namespace LineState

variable {engine : Engine}
variable {grammar : Grammar}
variable {line : Array UInt8}
variable {state next last : LineState}

/- The state has a well-formed stack, and its tokens are headed. -/
structure WellFormed (grammar : Grammar) (state : LineState) : Prop where
  stack : state.stack.WellFormed grammar
  tokens : Tokens.Headed grammar state.tokens

/- Colouring up to a column keeps the state well-formed. -/
theorem wellFormed_fill
    (hState : state.WellFormed grammar)
    (start stop : Nat) :
    (state.fill start stop).WellFormed grammar where
  stack := hState.stack
  tokens :=
    Tokens.headed_push hState.tokens
      (RuleStack.heads_of_wellFormed hState.stack).2 start stop

/- Colouring a match keeps the state well-formed. -/
theorem wellFormed_colour
    {scopes : List Scope}
    (m : Match)
    (hState : state.WellFormed grammar)
    (hScopes : grammar.Heads scopes)
    (captures : CaptureNames) :
    (state.colour m scopes captures).WellFormed grammar where
  stack := hState.stack
  tokens := Captures.headed_emit m hState.tokens hScopes captures

/- Closing a region takes the innermost frame from the stack. -/
theorem stack_closeRegion
    (state : LineState) :
    state.closeRegion.stack = state.stack.pop := by
  unfold closeRegion stack RuleStack.pop
  split
  · next hNone => simp only [hNone]
  · next frame frames hBelow => simp only [hBelow]

/- Closing a region changes no token. -/
theorem tokens_closeRegion
    (state : LineState) :
    state.closeRegion.tokens = state.tokens := by
  unfold closeRegion
  split <;> rfl

/-
  Opening a region puts a frame on the stack, if the frame is one
  deeper than the innermost one.
-/
theorem stack_openRegion
    {frame : Frame}
    (state : LineState)
    (m : Match)
    (hDepth : frame.depth = state.top.depth + 1) :
    (state.openRegion m frame).stack =
      state.stack.push frame.ruleId frame.ending frame.endSource
        frame.nameScopes frame.contentScopes := by
  cases frame
  cases hDepth
  rfl

/- Closing a region keeps the state well-formed. -/
theorem wellFormed_closeRegion
    (hState : state.WellFormed grammar) :
    state.closeRegion.WellFormed grammar where
  stack := by
    rw [stack_closeRegion]
    exact RuleStack.wellFormed_pop hState.stack
  tokens := by
    rw [tokens_closeRegion]
    exact hState.tokens

/- The source of an end that does not refer to its begin. -/
theorem endSource_eq_of_endingFor
    {m : Match}
    {endSource source : Bytes}
    {ending : Ending}
    {pattern : Option Pattern}
    (hFixed : ∃ p, ending = .fixed p)
    (hEnding : endingFor engine line m endSource ending = (pattern, source)) :
    source = endSource := by
  rcases hFixed with ⟨p, rfl⟩
  cases hEnding
  rfl

/- Every move keeps the state well-formed. -/
theorem wellFormed_of_moves
    (hSound : grammar.Sound)
    (hState : state.WellFormed grammar)
    (hMoves : Moves engine grammar line state next) :
    next.WellFormed grammar := by
  have hHeads := RuleStack.heads_of_wellFormed hState.stack
  cases hMoves with
  | @close m hBest =>
      have hColoured :=
        wellFormed_colour m
          (wellFormed_fill hState state.column m.start) hHeads.1
          (grammar.rule state.top.ruleId).endCaptures
      have hClosed := wellFormed_closeRegion hColoured
      exact ⟨hClosed.stack, hClosed.tokens⟩
  | @single m id _ captures hBest hBody hWide =>
      have hColoured :=
        wellFormed_colour m
          (wellFormed_fill hState state.column m.start)
          (Grammar.heads_withScope hHeads.2 (grammar.rule id).name)
          captures
      exact ⟨hColoured.stack, hColoured.tokens⟩
  | @unending m id _ captures _ _ _ _ hBest hBody hRejected hWide =>
      have hColoured :=
        wellFormed_colour m
          (wellFormed_fill hState state.column m.start)
          (Grammar.heads_withScope hHeads.2 (grammar.rule id).name)
          captures
      exact ⟨hColoured.stack, hColoured.tokens⟩
  | @enter m id _ captures _ endSource source ending _ pattern hBest
      hBody hEnding hNew =>
      have hColoured :=
        wellFormed_colour m
          (wellFormed_fill hState state.column m.start)
          (Grammar.heads_withScope hHeads.2 (grammar.rule id).name)
          captures
      have hRegion : (grammar.rule id).isRegion = true := by
        simp [Rule.isRegion, hBody]
      have hSource : (grammar.rule id).endSource = endSource := by
        simp [Rule.endSource, hBody]
      refine ⟨?_, hColoured.tokens⟩
      apply RuleStack.WellFormed.region hState.stack _ rfl
      refine ⟨lt_size_of_isRegion hRegion, hRegion, rfl, rfl, rfl, ?_⟩
      intro hOccurs
      change BackReference.occurs (grammar.rule id).endSource = false
        at hOccurs
      change source = (grammar.rule id).endSource
      rw [hSource] at hOccurs ⊢
      exact
        endSource_eq_of_endingFor (hSound.ending_fixed hBody hOccurs)
          hEnding

/- An empty match is not coloured, whatever its scopes are. -/
theorem colour_of_empty
    {m : Match}
    (hEmpty : m.start = m.stop)
    (state : LineState)
    (scopes : List Scope)
    (captures : CaptureNames) :
    state.colour m scopes captures = state := by
  simp [colour, Captures.emit, hEmpty]

/- The last step keeps the state well-formed. -/
theorem wellFormed_of_stops
    (hState : state.WellFormed grammar)
    (hStops : Stops engine grammar line state last) :
    last.WellFormed grammar := by
  cases hStops with
  | nothing hBest => exact wellFormed_fill hState _ _
  | idle hBest => exact wellFormed_fill (wellFormed_fill hState _ _) _ _
  | unending hBest hEmpty =>
      rw [colour_of_empty hEmpty]
      exact wellFormed_fill (wellFormed_fill hState _ _) _ _

/- A line starts with a well-formed state. -/
theorem wellFormed_start
    {prior : RuleStack}
    (hPrior : prior = RuleStack.empty ∨ prior.WellFormed grammar) :
    (start grammar prior).WellFormed grammar := by
  have hTokens : Tokens.Headed grammar (start grammar prior).tokens := by
    intro token hToken
    cases hToken
  refine ⟨?_, hTokens⟩
  rcases hPrior with rfl | hStack
  · exact RuleStack.WellFormed.initial rfl
  · rcases prior with ⟨frames⟩
    cases frames with
    | nil => exact absurd rfl (RuleStack.frames_ne_nil hStack)
    | cons top below => exact hStack

/- Every state of a run is well-formed if the first one is. -/
theorem wellFormed_of_reaches
    {first : LineState}
    (hSound : grammar.Sound)
    (hFirst : first.WellFormed grammar)
    (hReaches : Reaches engine grammar line first state) :
    state.WellFormed grammar := by
  induction hReaches with
  | refl => exact hFirst
  | next _ hStep ih =>
      exact wellFormed_of_moves hSound ih (moves_of_step hStep)

/- What is reached from the second state is reached from the first. -/
theorem reaches_of_step
    {first second : LineState}
    (hStep : first.step engine grammar line = .next second)
    (hReaches : Reaches engine grammar line second state) :
    Reaches engine grammar line first state := by
  induction hReaches with
  | refl => exact Reaches.next Reaches.refl hStep
  | next _ hLater ih => exact Reaches.next ih hLater

/-
  A run that ends has come to a state whose step is the last one.
-/
theorem exists_reaches_of_run?
    (hRun : state.run? engine grammar line = some last) :
    ∃ before,
      Reaches engine grammar line state before ∧
        before.step engine grammar line = .done last := by
  refine
    run?.partial_correctness engine grammar line
      (fun state last =>
        ∃ before,
          Reaches engine grammar line state before ∧
            before.step engine grammar line = .done last)
      ?_ state last hRun
  intro run ih state last hRun
  cases hStep : state.step engine grammar line with
  | next next =>
      rw [hStep] at hRun
      rcases ih next last hRun with ⟨before, hReaches, hLast⟩
      exact ⟨before, reaches_of_step hStep hReaches, hLast⟩
  | done other =>
      rw [hStep] at hRun
      cases hRun
      exact ⟨state, Reaches.refl, hStep⟩

------------------------------------------------------------
-- Looking Up Rules
------------------------------------------------------------

/- The numbers of the rules that a step looks up. -/
def lookups (grammar : Grammar) (state : LineState) : List RuleId :=
  state.top.ruleId :: (grammar.rule state.top.ruleId).candidates

/-
  A step depends on no other rule than these: it is the same with
  any grammar that has the same rules at these numbers.
-/
theorem step_congr
    {grammar' : Grammar}
    (hRules :
      ∀ id ∈ state.lookups grammar, grammar'.rule id = grammar.rule id) :
    state.step engine grammar' line = state.step engine grammar line := by
  have hTop : grammar'.rule state.top.ruleId = grammar.rule state.top.ruleId :=
    hRules _ List.mem_cons_self
  have hCandidate :
      ∀ id ∈ (grammar.rule state.top.ruleId).candidates,
        grammar'.rule id = grammar.rule id :=
    fun id hId => hRules id (List.mem_cons_of_mem _ hId)
  have hTrials : state.trials grammar' = state.trials grammar := by
    have hRuleTrials :
        state.ruleTrials grammar' = state.ruleTrials grammar := by
      unfold ruleTrials
      rw [hTop]
      apply List.filterMap_congr
      intro id hId
      rw [hCandidate id hId]
    unfold trials
    rw [hTop, hRuleTrials]
  have hBest :
      state.best? engine grammar' line = state.best? engine grammar line := by
    unfold best?
    rw [hTrials]
  unfold step
  rw [hBest]
  cases hHit : state.best? engine grammar line with
  | none => rfl
  | some hit =>
      rcases hit with ⟨m, origin⟩
      unfold apply
      cases origin with
      | ending =>
          dsimp only [fill]
          rw [hTop]
      | rule id =>
          rcases exists_trial_of_best? hHit with
            ⟨trial, hMember, hOrigin, _⟩
          have hId : id ∈ (grammar.rule state.top.ruleId).candidates := by
            rcases mem_trials_iff.mp hMember with
              ⟨_, _, rfl⟩ | hRuleTrial
            · cases hOrigin
            · rcases origin_of_mem_ruleTrials hRuleTrial with
                ⟨other, hOther, hSame⟩
              cases hSame.symm.trans hOrigin
              exact hOther
          dsimp only
          rw [hCandidate id hId]

/- All rules that a step looks up are in the table. -/
theorem lookups_lt
    (hSound : grammar.Sound)
    (hState : state.WellFormed grammar) :
    ∀ id ∈ state.lookups grammar, id < grammar.rules.size := by
  intro id hId
  rcases List.mem_cons.mp hId with rfl | hCandidate
  · exact RuleStack.rule_lt_of_wellFormed hSound hState.stack
  · exact hSound.candidates_lt _ id hCandidate

end LineState

------------------------------------------------------------
-- Lines
------------------------------------------------------------

/- A line leaves a well-formed stack behind, and headed tokens. -/
theorem wellFormed_of_tokenizeLine?
    {engine : Engine}
    {grammar : Grammar}
    {prior : RuleStack}
    {line : Bytes}
    {maxLength : Nat}
    {result : LineTokens}
    (hSound : grammar.Sound)
    (hPrior : prior = RuleStack.empty ∨ prior.WellFormed grammar)
    (hLine :
      tokenizeLine? engine grammar line prior maxLength =
        some result) :
    result.stack.WellFormed grammar ∧
      Tokens.Headed grammar result.tokens := by
  have hStart := LineState.wellFormed_start hPrior
  have hResult :
      ∀ last : LineState,
        last.WellFormed grammar →
          last.result.stack.WellFormed grammar ∧
            Tokens.Headed grammar last.result.tokens := by
    intro last hLast
    refine ⟨hLast.stack, ?_⟩
    intro token hToken
    exact hLast.tokens token (List.mem_reverse.mp hToken)
  unfold tokenizeLine? at hLine
  dsimp only at hLine
  split at hLine
  · cases hLine
    exact hResult _ (LineState.wellFormed_fill hStart _ _)
  · rcases Option.map_eq_some_iff.mp hLine with ⟨last, hRun, rfl⟩
    rcases LineState.exists_reaches_of_run? hRun with
      ⟨state, hReaches, hStep⟩
    have hState :=
      LineState.wellFormed_of_reaches hSound hStart hReaches
    exact
      hResult _
        (LineState.wellFormed_of_stops hState
          (LineState.stops_of_step hStep))

/- The stacks that lines leave behind are well-formed. -/
theorem RuleStack.wellFormed_of_reached
    {engine : Engine}
    {grammar : Grammar}
    {stack : RuleStack}
    (hSound : grammar.Sound)
    (hReached : stack.Reached engine grammar) :
    stack = RuleStack.empty ∨ stack.WellFormed grammar := by
  induction hReached with
  | empty => exact Or.inl rfl
  | line _ hLine ih =>
      exact Or.inr (wellFormed_of_tokenizeLine? hSound ih hLine).1

/-
  Whatever lines of a compiled grammar came before, a line leaves
  a well-formed stack behind, which has a frame at least.  On the
  way no step looks up a rule beyond the table, so that it does
  not matter what stands there, and the scopes of all tokens
  begin with the scope of the grammar.  Nothing is asked of the
  engine.
-/
theorem tokenizeLine?_wellFormed
    {compiler : BoundedEngine}
    {engine : Engine}
    {value : Json}
    {grammar : Grammar}
    {remarks : List Diagnostic}
    {prior : RuleStack}
    {line : Bytes}
    {maxLength : Nat}
    {result : LineTokens}
    (hBuilt :
      Grammar.ofJson compiler value = (.ok (some grammar), remarks))
    (hPrior : prior.Reached engine grammar)
    (hLine :
      tokenizeLine? engine grammar line prior maxLength =
        some result) :
    result.stack.WellFormed grammar ∧
      result.stack.frames ≠ [] ∧
        (∀ state,
          LineState.Reaches engine grammar line.toArray
              (LineState.start grammar prior) state →
            (∀ id ∈ state.lookups grammar, id < grammar.rules.size) ∧
              ∀ grammar' : Grammar,
                (∀ id < grammar.rules.size,
                    grammar'.rule id = grammar.rule id) →
                  state.step engine grammar' line.toArray =
                    state.step engine grammar line.toArray) ∧
          ∀ token ∈ result.tokens,
            token.scopes.head? = some grammar.scopeName := by
  have hSound := Grammar.sound_of_ofJson hBuilt
  have hStack := RuleStack.wellFormed_of_reached hSound hPrior
  rcases wellFormed_of_tokenizeLine? hSound hStack hLine with
    ⟨hResult, hTokens⟩
  refine ⟨hResult, RuleStack.frames_ne_nil hResult, ?_, hTokens⟩
  intro state hReaches
  have hLookups :=
    LineState.lookups_lt hSound
      (LineState.wellFormed_of_reaches hSound
        (LineState.wellFormed_start hStack) hReaches)
  refine ⟨hLookups, ?_⟩
  intro grammar' hSame
  exact
    LineState.step_congr (fun id hId => hSame id (hLookups id hId))

/- A grammar of texts that end with the word they begin with. -/
def Json.heredocGrammar : Json :=
  .record
    [("scopeName", .ofString "source.shell"),
      ("patterns",
        .array
          [.record
            [("begin", .ofString "<<(\\w+)"), ("end", .ofString "^\\1$"),
              ("name", .ofString "string.unquoted"),
              ("contentName", .ofString "meta.embedded"),
              ("patterns",
                .array [.record [("include", .ofString "$self")]])]])]

/- A text is opened on one line, and another one inside it. -/
theorem tokenizeLine?_wellFormed_heredoc :
    ∃ grammar remarks first second,
      Grammar.ofJson .standard Json.heredocGrammar =
          (.ok (some grammar), remarks) ∧
        tokenizeLine? Engine.standard grammar (utf8 "cat <<EOT")
            RuleStack.empty 0 =
          some first ∧
        tokenizeLine? Engine.standard grammar (utf8 "a <<END b")
            first.stack 20000 =
          some second ∧
        second.stack.WellFormed grammar ∧
        second.stack.frames ≠ [] ∧
        ∀ token ∈ second.tokens,
          token.scopes.head? = some grammar.scopeName := by
  have hBuilt : ∃ grammar remarks,
      Grammar.ofJson .standard Json.heredocGrammar =
        (.ok (some grammar), remarks) := ⟨_, _, rfl⟩
  rcases hBuilt with ⟨grammar, remarks, hBuilt⟩
  have hStart : RuleStack.empty.Reached Engine.standard grammar :=
    .empty
  have hEngine := Engine.standard_staysInside
  rcases
      exists_tokenizeLine?_eq_some hEngine grammar
        (RuleStack.rooted_of_reached hEngine hStart)
        (utf8 "cat <<EOT") 0 with
    ⟨first, hFirst, hRooted⟩
  rcases
      exists_tokenizeLine?_eq_some hEngine grammar hRooted
        (utf8 "a <<END b") 20000 with
    ⟨second, hSecond, _⟩
  rcases
      tokenizeLine?_wellFormed hBuilt (.line hStart hFirst) hSecond with
    ⟨hStack, hFrames, _, hTokens⟩
  exact
    ⟨grammar, remarks, first, second, hBuilt, hFirst, hSecond, hStack,
      hFrames, hTokens⟩

end Marginalia

import Marginalia.Proofs.Grammar.Correspondence
import Marginalia.Proofs.Token.Partition

/-
  This file proves that grammars whose rules correspond cut all
  lines alike: the tokens are the same, and the stacks are as
  deep.

  The two runs go in lockstep.  Two states correspond if they
  differ in nothing but the numbers of rules, and these are
  partners.  Then the same patterns are searched for in the same
  order, so the same match is found, and what is done with it
  leads to states that correspond again.

  Key definitions include:
    * `Frame.Corresponds`, `RuleStack.Corresponds`
    * `LineState.Corresponds`, `LineStep.Corresponds`
  The main statements are:
    * `LineState.corresponds_step`
    * `LineState.corresponds_run?`
    * `corresponds_tokenizeLines?`
-/

namespace Marginalia

variable {partner : RuleId → RuleId → Prop}
variable {grammar grammar' : Grammar}
variable {engine : Engine}
variable {line : Array UInt8}

------------------------------------------------------------
-- Hits
------------------------------------------------------------

/- Both were found at an end, or at rules that are partners. -/
inductive Origin.Corresponds
    (partner : RuleId → RuleId → Prop) : Origin → Origin → Prop where
| ending : Corresponds partner .ending .ending
| rule
    {a b : RuleId}
    (hPartner : partner a b) :
    Corresponds partner (.rule a) (.rule b)

/- Both trials search for one pattern. -/
structure Trial.Corresponds
    (partner : RuleId → RuleId → Prop)
    (trial trial' : Trial) : Prop where
  pattern_eq : trial.pattern = trial'.pattern
  origin : Origin.Corresponds partner trial.origin trial'.origin

/- Both hits are one match. -/
structure Hit.Corresponds
    (partner : RuleId → RuleId → Prop)
    (hit hit' : Hit) : Prop where
  found_eq : hit.found = hit'.found
  origin : Origin.Corresponds partner hit.origin hit'.origin

namespace Hit

/- A hit found by a pattern corresponds to the other one found by it. -/
theorem corresponds_map
    {trial trial' : Trial}
    (hTrial : Trial.Corresponds partner trial trial')
    (found? : Option Match) :
    Option.Rel (Hit.Corresponds partner)
      (found?.map (fun m => ⟨m, trial.origin⟩))
      (found?.map (fun m => ⟨m, trial'.origin⟩)) := by
  cases found? with
  | none => exact Option.Rel.none
  | some m => exact Option.Rel.some ⟨rfl, hTrial.origin⟩

/- One more trial leaves hits that correspond. -/
theorem corresponds_improve
    (column : Nat)
    {best best' : Option Hit}
    {trial trial' : Trial}
    (hBest : Option.Rel (Hit.Corresponds partner) best best')
    (hTrial : Trial.Corresponds partner trial trial') :
    Option.Rel (Hit.Corresponds partner)
      (improve engine line column best trial)
      (improve engine line column best' trial') := by
  cases hBest with
  | none =>
      simp only [improve]
      rw [← hTrial.pattern_eq]
      exact corresponds_map hTrial _
  | @some hit hit' hHit =>
      simp only [improve]
      rw [← hTrial.pattern_eq, ← hHit.found_eq]
      split
      · exact Option.Rel.some hHit
      · split
        · exact Option.Rel.some hHit
        · split
          · exact Option.Rel.some ⟨rfl, hTrial.origin⟩
          · exact Option.Rel.some hHit

/- The best hits of trials that correspond do so too. -/
theorem corresponds_first?
    (column : Nat)
    {trials trials' : List Trial}
    (hTrials : List.Forall₂ (Trial.Corresponds partner) trials trials') :
    Option.Rel (Hit.Corresponds partner)
      (first? engine line column trials)
      (first? engine line column trials') := by
  apply List.rel_foldl _ Option.Rel.none hTrials
  intro best best' hBest trial trial' hTrial
  exact corresponds_improve column hBest hTrial

end Hit

------------------------------------------------------------
-- States
------------------------------------------------------------

/- Two frames differ in the numbers of their rules at most. -/
structure Frame.Corresponds
    (partner : RuleId → RuleId → Prop)
    (frame frame' : Frame) : Prop where
  rule : partner frame.ruleId frame'.ruleId
  ending_eq : frame.ending = frame'.ending
  endSource_eq : frame.endSource = frame'.endSource
  nameScopes_eq : frame.nameScopes = frame'.nameScopes
  contentScopes_eq : frame.contentScopes = frame'.contentScopes
  depth_eq : frame.depth = frame'.depth

/- Two stacks differ in the numbers of rules at most. -/
def RuleStack.Corresponds
    (partner : RuleId → RuleId → Prop)
    (stack stack' : RuleStack) : Prop :=
  List.Forall₂ (Frame.Corresponds partner) stack.frames stack'.frames

/- Two states differ in the numbers of rules at most. -/
structure LineState.Corresponds
    (partner : RuleId → RuleId → Prop)
    (state state' : LineState) : Prop where
  column_eq : state.column = state'.column
  top : Frame.Corresponds partner state.top state'.top
  below :
    List.Forall₂ (Frame.Corresponds partner) state.below state'.below
  opened : List.Forall₂ partner state.opened state'.opened
  tokens_eq : state.tokens = state'.tokens

/- Both lines go on, or both are done. -/
inductive LineStep.Corresponds
    (partner : RuleId → RuleId → Prop) : LineStep → LineStep → Prop where
| next
    {state state' : LineState}
    (hState : LineState.Corresponds partner state state') :
    Corresponds partner (.next state) (.next state')
| done
    {state state' : LineState}
    (hState : LineState.Corresponds partner state state') :
    Corresponds partner (.done state) (.done state')

/- Of two lists of partners both have a partner, or none has. -/
theorem mem_iff_of_forall₂
    {a b : RuleId}
    {as bs : List RuleId}
    (hCorresponds : grammar.Corresponds partner grammar')
    (hPartner : partner a b)
    (hLists : List.Forall₂ partner as bs) :
    a ∈ as ↔ b ∈ bs := by
  induction hLists with
  | nil => simp
  | cons hHead _ ih =>
      rw [List.mem_cons, List.mem_cons, ih,
        hCorresponds.eq_iff hHead hPartner]

namespace LineState

variable {state state' : LineState}

/- The whole stacks of states that correspond. -/
theorem corresponds_stack
    (hState : Corresponds partner state state') :
    RuleStack.Corresponds partner state.stack state'.stack :=
  List.Forall₂.cons hState.top hState.below

/- Colouring up to a column. -/
theorem corresponds_fill
    (hState : Corresponds partner state state')
    (start stop : Nat) :
    Corresponds partner (state.fill start stop)
      (state'.fill start stop) :=
  { hState with
    tokens_eq := by
      simp only [fill, hState.tokens_eq, hState.top.contentScopes_eq] }

/- Colouring a match. -/
theorem corresponds_colour
    (hState : Corresponds partner state state')
    (m : Match)
    (scopes : List Scope)
    (captures : CaptureNames) :
    Corresponds partner (state.colour m scopes captures)
      (state'.colour m scopes captures) :=
  { hState with
    tokens_eq := by
      simp only [colour, hState.tokens_eq] }

/- The regions that count at a column. -/
theorem forall₂_openedAt
    (hState : Corresponds partner state state')
    (column : Nat) :
    List.Forall₂ partner (state.openedAt column)
      (state'.openedAt column) := by
  unfold openedAt
  rw [← hState.column_eq]
  split
  · exact hState.opened
  · exact List.Forall₂.nil

/- Going on at a column. -/
theorem corresponds_moveTo
    (hState : Corresponds partner state state')
    (column : Nat) :
    Corresponds partner (state.moveTo column) (state'.moveTo column) :=
  { hState with
    column_eq := rfl
    opened := forall₂_openedAt hState column }

/- Closing the innermost region. -/
theorem corresponds_closeRegion
    (hState : Corresponds partner state state') :
    Corresponds partner state.closeRegion state'.closeRegion := by
  unfold closeRegion
  have hBelow := hState.below
  cases hFrames : state.below with
  | nil =>
      rw [hFrames, List.forall₂_nil_left_iff] at hBelow
      rw [hBelow]
      exact hState
  | cons frame frames =>
      rw [hFrames, List.forall₂_cons_left_iff] at hBelow
      rcases hBelow with ⟨frame', frames', hTop, hRest, hSame⟩
      rw [hSame]
      exact { hState with top := hTop, below := hRest }

/- Opening a region. -/
theorem corresponds_openRegion
    {frame frame' : Frame}
    (hState : Corresponds partner state state')
    (m : Match)
    (hFrame : Frame.Corresponds partner frame frame') :
    Corresponds partner (state.openRegion m frame)
      (state'.openRegion m frame') where
  column_eq := rfl
  top := hFrame
  below := List.Forall₂.cons hState.top hState.below
  opened := by
    simp only [openRegion]
    split
    · exact List.Forall₂.cons hFrame.rule (forall₂_openedAt hState m.stop)
    · exact forall₂_openedAt hState m.stop
  tokens_eq := hState.tokens_eq

------------------------------------------------------------
-- Steps
------------------------------------------------------------

/- Only rules with a pattern are searched for. -/
theorem ruleTrials_eq
    (grammar : Grammar)
    (state : LineState) :
    state.ruleTrials grammar =
      (grammar.trialIds state.top.ruleId).filterMap (fun id =>
        (grammar.rule id).pattern?.map (fun p => ⟨p, .rule id⟩)) := by
  unfold ruleTrials Grammar.trialIds
  rw [List.filterMap_filter]
  apply List.filterMap_congr
  intro id _
  change _ = if (grammar.rule id).pattern?.isSome = true then _ else none
  cases (grammar.rule id).pattern? <;> rfl

/- The rules that are tried correspond. -/
theorem forall₂_ruleTrials
    (hCorresponds : grammar.Corresponds partner grammar')
    (hState : Corresponds partner state state') :
    List.Forall₂ (Trial.Corresponds partner)
      (state.ruleTrials grammar) (state'.ruleTrials grammar') := by
  rw [ruleTrials_eq, ruleTrials_eq]
  apply List.rel_filterMap _ (hCorresponds.trials hState.top.rule)
  intro a b hPartner
  have hPattern :
      (grammar.rule a).pattern? = (grammar'.rule b).pattern? := by
    unfold Rule.pattern?
    rw [hCorresponds.body_eq hPartner]
  dsimp only
  rw [hPattern]
  cases (grammar'.rule b).pattern? with
  | none => exact Option.Rel.none
  | some p => exact Option.Rel.some ⟨rfl, Origin.Corresponds.rule hPartner⟩

/- All that is tried corresponds, in the same order. -/
theorem forall₂_trials
    (hCorresponds : grammar.Corresponds partner grammar')
    (hState : Corresponds partner state state') :
    List.Forall₂ (Trial.Corresponds partner)
      (state.trials grammar) (state'.trials grammar') := by
  have hLast :
      (grammar.rule state.top.ruleId).endLast =
        (grammar'.rule state'.top.ruleId).endLast := by
    unfold Rule.endLast
    rw [hCorresponds.body_eq hState.top.rule]
  have hEnds :
      List.Forall₂ (Trial.Corresponds partner)
        (state.top.ending.toList.map (fun p => ⟨p, .ending⟩))
        (state'.top.ending.toList.map (fun p => ⟨p, .ending⟩)) := by
    rw [hState.top.ending_eq]
    cases state'.top.ending with
    | none => exact List.Forall₂.nil
    | some p =>
        exact
          List.Forall₂.cons ⟨rfl, Origin.Corresponds.ending⟩
            List.Forall₂.nil
  have hRules := forall₂_ruleTrials hCorresponds hState
  unfold trials
  dsimp only
  rw [hLast]
  split
  · exact List.rel_append hRules hEnds
  · exact List.rel_append hEnds hRules

/- The hits to go on with correspond. -/
theorem corresponds_best?
    (hCorresponds : grammar.Corresponds partner grammar')
    (hState : Corresponds partner state state') :
    Option.Rel (Hit.Corresponds partner)
      (state.best? engine grammar line)
      (state'.best? engine grammar' line) := by
  unfold best?
  rw [← hState.column_eq]
  exact
    Hit.corresponds_first? state.column (forall₂_trials hCorresponds hState)

/- Opening partners at one match. -/
theorem corresponds_stepRegion
    {a b : RuleId}
    (hCorresponds : grammar.Corresponds partner grammar')
    (hState : Corresponds partner state state')
    (hPartner : partner a b)
    (m : Match)
    (captures : CaptureNames)
    (endSource : Bytes)
    (ending : Ending) :
    LineStep.Corresponds partner
      (state.stepRegion engine line a (grammar.rule a) m captures
        endSource ending)
      (state'.stepRegion engine line b (grammar'.rule b) m captures
        endSource ending) := by
  have hGuard :
      (m.start = m.stop ∧ a ∈ state.openedAt m.start) ↔
        (m.start = m.stop ∧ b ∈ state'.openedAt m.start) := by
    rw [mem_iff_of_forall₂ hCorresponds hPartner
      (forall₂_openedAt hState m.start)]
  unfold stepRegion
  rw [hCorresponds.name_eq hPartner, hCorresponds.contentName_eq hPartner,
    hState.top.contentScopes_eq]
  by_cases hOpened : m.start = m.stop ∧ b ∈ state'.openedAt m.start
  · rw [if_pos (hGuard.mpr hOpened), if_pos hOpened]
    exact LineStep.Corresponds.done (corresponds_fill hState _ _)
  · rw [if_neg (fun hFirst => hOpened (hGuard.mp hFirst)),
      if_neg hOpened]
    dsimp only
    have hColoured :=
      corresponds_colour hState m
        (withScope state'.top.contentScopes (grammar'.rule b).name)
        captures
    split
    · split
      · exact LineStep.Corresponds.done (corresponds_fill hColoured _ _)
      · exact LineStep.Corresponds.next (corresponds_moveTo hColoured _)
    · exact
        LineStep.Corresponds.next
          (corresponds_openRegion hColoured m
            ⟨hPartner, rfl, rfl, rfl, rfl,
              congrArg Nat.succ hState.top.depth_eq⟩)

/- Applying hits that correspond. -/
theorem corresponds_apply
    {hit hit' : Hit}
    (hCorresponds : grammar.Corresponds partner grammar')
    (hState : Corresponds partner state state')
    (hHit : Hit.Corresponds partner hit hit') :
    LineStep.Corresponds partner
      (state.apply engine grammar line hit)
      (state'.apply engine grammar' line hit') := by
  rcases hit with ⟨m, origin⟩
  rcases hit' with ⟨m', origin'⟩
  rcases hHit with ⟨hFound, hOrigin⟩
  dsimp only at hFound hOrigin
  subst hFound
  unfold apply
  cases hOrigin with
  | ending =>
      have hCaptures :
          (grammar.rule state.top.ruleId).endCaptures =
            (grammar'.rule state'.top.ruleId).endCaptures := by
        unfold Rule.endCaptures
        rw [hCorresponds.body_eq hState.top.rule]
      dsimp only
      rw [hCaptures, hState.top.nameScopes_eq]
      exact
        LineStep.Corresponds.next
          (corresponds_moveTo
            (corresponds_closeRegion (corresponds_colour hState m _ _))
            m.stop)
  | @rule a b hPartner =>
      dsimp only
      rw [hCorresponds.body_eq hPartner]
      split
      · split
        · exact LineStep.Corresponds.done (corresponds_fill hState _ _)
        · rw [hCorresponds.name_eq hPartner, hState.top.contentScopes_eq]
          exact
            LineStep.Corresponds.next
              (corresponds_moveTo (corresponds_colour hState m _ _)
                m.stop)
      · exact corresponds_stepRegion hCorresponds hState hPartner m _ _ _
      · exact LineStep.Corresponds.done (corresponds_fill hState _ _)

/- Steps of states that correspond lead to such states again. -/
theorem corresponds_step
    (hCorresponds : grammar.Corresponds partner grammar')
    (hState : Corresponds partner state state') :
    LineStep.Corresponds partner (state.step engine grammar line)
      (state'.step engine grammar' line) := by
  have hBest :
      Option.Rel (Hit.Corresponds partner)
        (state.best? engine grammar line)
        (state'.best? engine grammar' line) :=
    corresponds_best? hCorresponds hState
  unfold step
  generalize state.best? engine grammar line = hit? at hBest ⊢
  generalize state'.best? engine grammar' line = hit'? at hBest ⊢
  cases hBest with
  | none =>
      rw [hState.column_eq]
      exact LineStep.Corresponds.done (corresponds_fill hState _ _)
  | some hHit =>
      dsimp only
      rw [hState.column_eq, hHit.found_eq]
      exact
        corresponds_apply hCorresponds (corresponds_fill hState _ _) hHit

------------------------------------------------------------
-- Runs
------------------------------------------------------------

/-
  Where a run ends, a run from a state that corresponds ends
  too, and with a state that corresponds.
-/
theorem corresponds_run?
    {last : LineState}
    (hCorresponds : grammar.Corresponds partner grammar')
    (hState : Corresponds partner state state')
    (hRun : state.run? engine grammar line = some last) :
    ∃ last',
      state'.run? engine grammar' line = some last' ∧
        Corresponds partner last last' := by
  refine
    run?.partial_correctness engine grammar line
      (fun state last =>
        ∀ state', Corresponds partner state state' →
          ∃ last',
            state'.run? engine grammar' line = some last' ∧
              Corresponds partner last last')
      ?_ state last hRun state' hState
  intro run ih state last hRun state' hState
  have hStep :
      LineStep.Corresponds partner (state.step engine grammar line)
        (state'.step engine grammar' line) :=
    corresponds_step hCorresponds hState
  rw [run?]
  generalize state.step engine grammar line = step at hRun hStep
  generalize state'.step engine grammar' line = step' at hStep ⊢
  cases hStep with
  | next hNext => exact ih _ last hRun _ hNext
  | @done other other' hDone =>
      cases hRun
      exact ⟨other', rfl, hDone⟩

end LineState

------------------------------------------------------------
-- Lines
------------------------------------------------------------

/- Two lines have the same tokens, and stacks that correspond. -/
structure LineTokens.Corresponds
    (partner : RuleId → RuleId → Prop)
    (result result' : LineTokens) : Prop where
  tokens_eq : result.tokens = result'.tokens
  stack : RuleStack.Corresponds partner result.stack result'.stack

namespace LineState

/- What states that correspond have come to. -/
theorem corresponds_result
    {state state' : LineState}
    (hState : Corresponds partner state state') :
    LineTokens.Corresponds partner state.result state'.result where
  tokens_eq := congrArg List.reverse hState.tokens_eq
  stack := corresponds_stack hState

/- Lines start with states that correspond. -/
theorem corresponds_start
    {prior prior' : RuleStack}
    (hCorresponds : grammar.Corresponds partner grammar')
    (hPrior : RuleStack.Corresponds partner prior prior') :
    Corresponds partner (start grammar prior) (start grammar' prior') := by
  rcases prior with ⟨frames⟩
  rcases prior' with ⟨frames'⟩
  have hFrames :
      List.Forall₂ (Frame.Corresponds partner) frames frames' := hPrior
  cases hFrames with
  | nil =>
      have hScopes : [grammar.scopeName] = [grammar'.scopeName] := by
        rw [hCorresponds.scopeName_eq]
      exact
        ⟨rfl, ⟨hCorresponds.root, rfl, rfl, hScopes, hScopes, rfl⟩,
          List.Forall₂.nil, List.Forall₂.nil, rfl⟩
  | cons hTop hBelow => exact ⟨rfl, hTop, hBelow, List.Forall₂.nil, rfl⟩

end LineState

/- Stacks that correspond are as deep. -/
theorem RuleStack.depth_eq_of_corresponds
    {stack stack' : RuleStack}
    (hStack : Corresponds partner stack stack') :
    stack.depth = stack'.depth := by
  rcases stack with ⟨frames⟩
  rcases stack' with ⟨frames'⟩
  have hFrames :
      List.Forall₂ (Frame.Corresponds partner) frames frames' := hStack
  cases hFrames with
  | nil => rfl
  | cons hTop _ => exact hTop.depth_eq

/- Lines that correspond have the same tokens and stacks as deep. -/
theorem LineTokens.map_eq_of_corresponds
    {results results' : List LineTokens}
    (hAll : List.Forall₂ (Corresponds partner) results results') :
    results.map (fun r => (r.tokens, r.stack.depth)) =
      results'.map (fun r => (r.tokens, r.stack.depth)) := by
  induction hAll with
  | nil => rfl
  | @cons result result' _ _ hHead _ ih =>
      have hDepth : result.stack.depth = result'.stack.depth :=
        RuleStack.depth_eq_of_corresponds hHead.stack
      simp only [List.map_cons, hHead.tokens_eq, hDepth, ih]

/- A line that ends does so with the other grammar too, and alike. -/
theorem corresponds_tokenizeLine?
    {prior prior' : RuleStack}
    {result : LineTokens}
    {text : Bytes}
    {maxLength : Nat}
    (hCorresponds : grammar.Corresponds partner grammar')
    (hPrior : RuleStack.Corresponds partner prior prior')
    (hLine :
      tokenizeLine? engine grammar text prior maxLength = some result) :
    ∃ result',
      tokenizeLine? engine grammar' text prior' maxLength =
          some result' ∧
        LineTokens.Corresponds partner result result' := by
  have hStart := LineState.corresponds_start hCorresponds hPrior
  unfold tokenizeLine? at hLine ⊢
  dsimp only at hLine ⊢
  split at hLine
  · next hLong =>
      cases hLine
      rw [if_pos hLong]
      exact
        ⟨_, rfl,
          LineState.corresponds_result
            (LineState.corresponds_fill hStart _ _)⟩
  · next hShort =>
      rcases Option.map_eq_some_iff.mp hLine with ⟨last, hRun, rfl⟩
      rcases LineState.corresponds_run? hCorresponds hStart hRun with
        ⟨last', hRun', hLast⟩
      rw [if_neg hShort, hRun']
      exact ⟨_, rfl, LineState.corresponds_result hLast⟩

/-
  Where all lines end, they do so with the other grammar too, and
  alike.  The induction is on the lines.
-/
theorem corresponds_tokenizeLines?
    (hCorresponds : grammar.Corresponds partner grammar')
    (lines : List (Bytes × Nat)) :
    ∀ {prior prior' : RuleStack} {results : List LineTokens},
      RuleStack.Corresponds partner prior prior' →
        tokenizeLines? engine grammar prior lines = some results →
          ∃ results',
            tokenizeLines? engine grammar' prior' lines =
                some results' ∧
              List.Forall₂ (LineTokens.Corresponds partner) results
                results' := by
  induction lines with
  | nil =>
      intro prior prior' results _ hLines
      cases hLines
      exact ⟨[], rfl, List.Forall₂.nil⟩
  | cons line lines ih =>
      rcases line with ⟨text, maxLength⟩
      intro prior prior' results hPrior hLines
      unfold tokenizeLines? at hLines
      split at hLines
      · cases hLines
      · next result hLine =>
          rcases Option.map_eq_some_iff.mp hLines with
            ⟨rest, hRest, rfl⟩
          rcases corresponds_tokenizeLine? hCorresponds hPrior hLine with
            ⟨result', hLine', hResult⟩
          rcases ih hResult.stack hRest with ⟨rest', hRest', hAll⟩
          refine ⟨result' :: rest', ?_, List.Forall₂.cons hResult hAll⟩
          simp [tokenizeLines?, hLine', hRest']

end Marginalia

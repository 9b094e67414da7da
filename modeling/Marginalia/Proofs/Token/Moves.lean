import Marginalia.Token.Line

/-
  This file says once what a step can do to a line, so that no
  later proof has to take a step apart.

  A step that goes on is one of four moves: it closes the
  innermost region, colours a single match, colours the begin of
  a region whose end is rejected, or opens a region.  A step
  that is the last one has found nothing, or has found an empty
  match that leads nowhere.

  Key definitions include:
    * `LineState.Moves`, `LineState.Stops`
  The main statements are:
    * `LineState.moves_of_step`
    * `LineState.stops_of_step`
    * `LineState.bounds_of_best?`
-/

namespace Marginalia

------------------------------------------------------------
-- Hits
------------------------------------------------------------

namespace Hit

variable {engine : Engine}
variable {line : Array UInt8}
variable {column : Nat}

/- A hit is the one so far, or what the last trial has found. -/
theorem improve_eq_some
    {best : Option Hit}
    {trial : Trial}
    {hit : Hit}
    (hImprove : improve engine line column best trial = some hit) :
    best = some hit ∨
      (trial.origin = hit.origin ∧
        engine.search? trial.pattern line column =
          some hit.found) := by
  unfold improve at hImprove
  split at hImprove
  · rcases Option.map_eq_some_iff.mp hImprove with ⟨m, hFound, rfl⟩
    exact Or.inr ⟨rfl, hFound⟩
  · split at hImprove
    · exact Or.inl hImprove
    · split at hImprove
      · exact Or.inl hImprove
      · next m hFound =>
          split at hImprove
          · cases hImprove
            exact Or.inr ⟨rfl, hFound⟩
          · exact Or.inl hImprove

/- The best hit of some trials is what one of them has found. -/
theorem foldl_improve_eq_some
    {hit : Hit}
    (trials : List Trial) :
    ∀ {best : Option Hit},
      trials.foldl (improve engine line column) best = some hit →
        best = some hit ∨
          ∃ trial ∈ trials,
            trial.origin = hit.origin ∧
              engine.search? trial.pattern line column =
                some hit.found := by
  induction trials with
  | nil =>
      intro best hFold
      exact Or.inl hFold
  | cons trial trials ih =>
      intro best hFold
      rcases ih hFold with hBest | ⟨other, hMember, hOther⟩
      · rcases improve_eq_some hBest with hOld | hNew
        · exact Or.inl hOld
        · exact Or.inr ⟨trial, List.mem_cons_self, hNew⟩
      · exact
          Or.inr ⟨other, List.mem_cons_of_mem _ hMember, hOther⟩

end Hit

namespace LineState

variable {engine : Engine}
variable {grammar : Grammar}
variable {line : Array UInt8}
variable {state next last : LineState}

/- The hit to go on with is what one of the trials has found. -/
theorem exists_trial_of_best?
    {hit : Hit}
    (hBest : state.best? engine grammar line = some hit) :
    ∃ trial ∈ state.trials grammar,
      trial.origin = hit.origin ∧
        engine.search? trial.pattern line state.column =
          some hit.found := by
  rcases Hit.foldl_improve_eq_some _ hBest with hNone | hTrial
  · cases hNone
  · exact hTrial

/- Where the hit to go on with starts and stops. -/
theorem bounds_of_best?
    {hit : Hit}
    (hEngine : engine.StaysInside)
    (hBest : state.best? engine grammar line = some hit) :
    state.column ≤ hit.found.start ∧
      hit.found.start ≤ hit.found.stop ∧
        hit.found.stop ≤ line.size := by
  rcases exists_trial_of_best? hBest with ⟨trial, _, _, hFound⟩
  exact
    ⟨hEngine.le_start hFound, hEngine.start_le_stop hFound,
      hEngine.stop_le_size hFound⟩

/- The trials of the rules are none of the end. -/
theorem origin_of_mem_ruleTrials
    {trial : Trial}
    (hMember : trial ∈ state.ruleTrials grammar) :
    ∃ id ∈ (grammar.rule state.top.ruleId).candidates,
      trial.origin = .rule id := by
  rcases List.mem_filterMap.mp hMember with ⟨id, hId, hMap⟩
  rcases Option.map_eq_some_iff.mp hMap with ⟨pattern, _, rfl⟩
  exact ⟨id, hId, rfl⟩

/- A trial is one of the end or one of the rules. -/
theorem mem_trials_iff
    {trial : Trial} :
    trial ∈ state.trials grammar ↔
      (∃ pattern,
          state.top.ending = some pattern ∧
            ⟨pattern, .ending⟩ = trial) ∨
        trial ∈ state.ruleTrials grammar := by
  unfold trials
  dsimp only
  split
  · simp [or_comm]
  · simp

/- Only a region that has an end is found to end. -/
theorem exists_ending_of_best?
    {m : Match}
    (hBest : state.best? engine grammar line = some ⟨m, .ending⟩) :
    ∃ pattern,
      state.top.ending = some pattern ∧
        engine.search? pattern line state.column = some m := by
  rcases exists_trial_of_best? hBest with
    ⟨trial, hMember, hOrigin, hFound⟩
  rcases mem_trials_iff.mp hMember with ⟨pattern, hEnding, rfl⟩ | hRule
  · exact ⟨pattern, hEnding, hFound⟩
  · rcases origin_of_mem_ruleTrials hRule with ⟨id, _, hId⟩
    rw [hId] at hOrigin
    cases hOrigin

------------------------------------------------------------
-- Moves
------------------------------------------------------------

/-
  The ways in which a line goes on.  In each of them the line is
  coloured up to the match, then the match, and the search goes
  on behind the match.
-/
inductive Moves
    (engine : Engine)
    (grammar : Grammar)
    (line : Array UInt8)
    (state : LineState) : LineState → Prop where
| close
    {m : Match}
    (hBest : state.best? engine grammar line = some ⟨m, .ending⟩) :
    Moves engine grammar line state
      (((state.fill state.column m.start).colour m
          state.top.nameScopes
          (grammar.rule state.top.ruleId).endCaptures).closeRegion.moveTo
        m.stop)
| single
    {m : Match}
    {id : RuleId}
    {pattern : Option Pattern}
    {captures : CaptureNames}
    (hBest : state.best? engine grammar line = some ⟨m, .rule id⟩)
    (hBody : (grammar.rule id).body = .single pattern captures)
    (hWide : m.start ≠ m.stop) :
    Moves engine grammar line state
      (((state.fill state.column m.start).colour m
          (withScope state.top.contentScopes (grammar.rule id).name)
          captures).moveTo m.stop)
| unending
    {m : Match}
    {id : RuleId}
    {opening : Option Pattern}
    {captures endCaptures : CaptureNames}
    {endSource : Bytes}
    {ending : Ending}
    {endLast : Bool}
    (hBest : state.best? engine grammar line = some ⟨m, .rule id⟩)
    (hBody :
      (grammar.rule id).body =
        .region opening captures endSource ending endCaptures endLast)
    (hRejected : (endingFor engine line m endSource ending).1 = none)
    (hWide : m.start ≠ m.stop) :
    Moves engine grammar line state
      (((state.fill state.column m.start).colour m
          (withScope state.top.contentScopes (grammar.rule id).name)
          captures).moveTo m.stop)
| enter
    {m : Match}
    {id : RuleId}
    {opening : Option Pattern}
    {captures endCaptures : CaptureNames}
    {endSource source : Bytes}
    {ending : Ending}
    {endLast : Bool}
    {pattern : Pattern}
    (hBest : state.best? engine grammar line = some ⟨m, .rule id⟩)
    (hBody :
      (grammar.rule id).body =
        .region opening captures endSource ending endCaptures endLast)
    (hEnding :
      endingFor engine line m endSource ending =
        (some pattern, source))
    (hNew : m.start = m.stop → id ∉ state.openedAt m.start) :
    Moves engine grammar line state
      (((state.fill state.column m.start).colour m
          (withScope state.top.contentScopes (grammar.rule id).name)
          captures).openRegion m
        { ruleId := id
          ending := some pattern
          endSource := source
          nameScopes :=
            withScope state.top.contentScopes (grammar.rule id).name
          contentScopes :=
            withScope
              (withScope state.top.contentScopes
                (grammar.rule id).name)
              (grammar.rule id).contentName
          depth := state.top.depth + 1 })

/-
  The ways in which a line is done.  In each of them the rest of
  the line is coloured by the innermost region.
-/
inductive Stops
    (engine : Engine)
    (grammar : Grammar)
    (line : Array UInt8)
    (state : LineState) : LineState → Prop where
| nothing
    (hBest : state.best? engine grammar line = none) :
    Stops engine grammar line state
      (state.fill state.column line.size)
| idle
    {hit : Hit}
    (hBest : state.best? engine grammar line = some hit) :
    Stops engine grammar line state
      ((state.fill state.column hit.found.start).fill hit.found.start
        line.size)
| unending
    {hit : Hit}
    {scopes : List Scope}
    {captures : CaptureNames}
    (hBest : state.best? engine grammar line = some hit)
    (hEmpty : hit.found.start = hit.found.stop) :
    Stops engine grammar line state
      (((state.fill state.column hit.found.start).colour hit.found
          scopes captures).fill hit.found.start line.size)

------------------------------------------------------------
-- Steps
------------------------------------------------------------

/- A step that goes on is a move. -/
theorem moves_of_step
    (hStep : state.step engine grammar line = .next next) :
    Moves engine grammar line state next := by
  unfold step at hStep
  split at hStep
  · cases hStep
  · next hit hBest =>
      rcases hit with ⟨m, origin⟩
      cases origin with
      | ending =>
          cases hStep
          exact Moves.close hBest
      | rule id =>
          unfold apply at hStep
          dsimp only at hStep
          split at hStep
          · next pattern captures hBody =>
              split at hStep
              · cases hStep
              · next hWide =>
                  cases hStep
                  exact Moves.single hBest hBody hWide
          · next opening captures endSource ending _ _ hBody =>
              unfold stepRegion at hStep
              split at hStep
              · cases hStep
              · next hGuard =>
                  dsimp only at hStep
                  split at hStep
                  · next hEnding =>
                      split at hStep
                      · cases hStep
                      · next hWide =>
                          cases hStep
                          exact
                            Moves.unending hBest hBody
                              (congrArg Prod.fst hEnding) hWide
                  · next pattern source hEnding =>
                      cases hStep
                      exact
                        Moves.enter hBest hBody hEnding
                          (fun hEmpty hMember =>
                            hGuard ⟨hEmpty, hMember⟩)
          · cases hStep

/- The last step of a line is one of the ways to stop. -/
theorem stops_of_step
    (hStep : state.step engine grammar line = .done last) :
    Stops engine grammar line state last := by
  unfold step at hStep
  split at hStep
  · next hBest =>
      cases hStep
      exact Stops.nothing hBest
  · next hit hBest =>
      unfold apply at hStep
      dsimp only at hStep
      split at hStep
      · cases hStep
      · split at hStep
        · split at hStep
          · cases hStep
            exact Stops.idle hBest
          · cases hStep
        · unfold stepRegion at hStep
          split at hStep
          · cases hStep
            exact Stops.idle hBest
          · dsimp only at hStep
            split at hStep
            · split at hStep
              · next hEmpty =>
                  cases hStep
                  exact Stops.unending hBest hEmpty
              · cases hStep
            · cases hStep
        · cases hStep
          exact Stops.idle hBest

end LineState

end Marginalia

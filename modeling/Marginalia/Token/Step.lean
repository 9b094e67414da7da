import Marginalia.Grammar.BackReference
import Marginalia.Pattern.Engine
import Marginalia.Token.Captures
import Marginalia.Token.Stack

/-
  This file takes the steps by which a line is cut into tokens.

  At each column the end of the innermost region and the rules
  that may match inside it are searched for.  The leftmost match
  wins, and of two at one column the one that is listed first.
  An end closes the region, a single match is coloured, and the
  begin of a region opens it; then the search goes on behind the
  match.

  Matches may be empty, so the column need not move.  A region
  with an empty begin is opened only once at a column, and an
  empty single match ends the line.

  Key definitions include:
    * `LineState`
    * `LineState.trials`
    * `LineState.best?`
    * `LineState.step`
-/

namespace Marginalia

------------------------------------------------------------
-- Hits
------------------------------------------------------------

/- What was found: the end of the innermost region, or a rule. -/
inductive Origin where
| ending
| rule (id : RuleId)
deriving DecidableEq, Repr

/- A match, and what it is a match of. -/
structure Hit where
  found : Match
  origin : Origin
deriving Repr

/- A pattern to search for, and what it is the pattern of. -/
structure Trial where
  pattern : Pattern
  origin : Origin

namespace Hit

/-
  Search for one more pattern.  It takes the place of the hit so
  far only if it starts earlier, so that no search is needed
  once a hit starts at the column of the search.
-/
def improve
    (engine : Engine)
    (line : Array UInt8)
    (column : Nat)
    (best : Option Hit)
    (trial : Trial) : Option Hit :=
  match best with
  | none =>
      (engine.search? trial.pattern line column).map
        (fun m => ⟨m, trial.origin⟩)
  | some hit =>
      if hit.found.start = column then some hit
      else
        match engine.search? trial.pattern line column with
        | none => some hit
        | some m =>
            if m.start < hit.found.start then some ⟨m, trial.origin⟩
            else some hit

/- The best hit among some patterns. -/
def first?
    (engine : Engine)
    (line : Array UInt8)
    (column : Nat)
    (trials : List Trial) : Option Hit :=
  trials.foldl (improve engine line column) none

end Hit

------------------------------------------------------------
-- States
------------------------------------------------------------

/-
  How far a line has been cut: the column, the innermost region
  with those around it, the regions that were opened by an empty
  begin at this column, and the tokens so far in reverse.
-/
structure LineState where
  column : Nat
  top : Frame
  below : List Frame
  opened : List RuleId
  tokens : List Token

/- The state after a step: the line goes on, or it is done. -/
inductive LineStep where
| next (state : LineState)
| done (state : LineState)

namespace LineState

/- The stack of a state. -/
def stack (state : LineState) : RuleStack :=
  ⟨state.top :: state.below⟩

/- The patterns of the rules that may match in the innermost region. -/
def ruleTrials (grammar : Grammar) (state : LineState) : List Trial :=
  (grammar.rule state.top.ruleId).candidates.filterMap (fun id =>
    (grammar.rule id).pattern?.map (fun p => ⟨p, .rule id⟩))

/- All patterns to search for, in their order. -/
def trials (grammar : Grammar) (state : LineState) : List Trial :=
  let ends :=
    state.top.ending.toList.map (fun p => (⟨p, .ending⟩ : Trial))
  if (grammar.rule state.top.ruleId).endLast then
    state.ruleTrials grammar ++ ends
  else ends ++ state.ruleTrials grammar

/- The hit to go on with. -/
def best?
    (engine : Engine)
    (grammar : Grammar)
    (line : Array UInt8)
    (state : LineState) : Option Hit :=
  Hit.first? engine line state.column (state.trials grammar)

/- Colour the line up to a column by the innermost region. -/
def fill (state : LineState) (start stop : Nat) : LineState :=
  { state with
    tokens :=
      Tokens.push state.tokens start stop state.top.contentScopes }

/- Colour a match, and the parts of it that have names. -/
def colour
    (state : LineState)
    (m : Match)
    (scopes : List Scope)
    (captures : CaptureNames) : LineState :=
  { state with tokens := Captures.emit m scopes captures state.tokens }

/- The regions opened at this column that count at another one. -/
def openedAt (state : LineState) (column : Nat) : List RuleId :=
  if column = state.column then state.opened else []

/- Go on at a column. -/
def moveTo (state : LineState) (column : Nat) : LineState :=
  { state with column := column, opened := state.openedAt column }

/- Scopes with one more name, unless the name is empty. -/
def withScope (scopes : List Scope) (name : Scope) : List Scope :=
  if name.isEmpty then scopes else scopes ++ [name]

/- Close the innermost region; the outermost one stays open. -/
def closeRegion (state : LineState) : LineState :=
  match state.below with
  | [] => state
  | frame :: frames => { state with top := frame, below := frames }

/- Open a region behind its begin.  An empty begin is remembered. -/
def openRegion
    (state : LineState)
    (m : Match)
    (frame : Frame) : LineState :=
  let opened := state.openedAt m.stop
  { state with
    column := m.stop
    top := frame
    below := state.top :: state.below
    opened :=
      if m.start = m.stop then frame.ruleId :: opened else opened }

/- The end of a region that a match opens, and the source of the end. -/
def endingFor
    (engine : Engine)
    (line : Array UInt8)
    (m : Match)
    (source : Bytes) : Ending → Option Pattern × Bytes
| .fixed pattern => (pattern, source)
| .referring =>
    let resolved := BackReference.resolve line m source
    (engine.compile? resolved, resolved)

------------------------------------------------------------
-- Steps
------------------------------------------------------------

/-
  Open a region at a match.  A region whose end is rejected is
  coloured as a single match; if that match is empty, the line
  is done.
-/
def stepRegion
    (engine : Engine)
    (line : Array UInt8)
    (state : LineState)
    (id : RuleId)
    (rule : Rule)
    (m : Match)
    (captures : CaptureNames)
    (endSource : Bytes)
    (ending : Ending) : LineStep :=
  if m.start = m.stop ∧ id ∈ state.openedAt m.start then
    .done (state.fill m.start line.size)
  else
    let nameScopes := withScope state.top.contentScopes rule.name
    let coloured := state.colour m nameScopes captures
    match endingFor engine line m endSource ending with
    | (none, _) =>
        if m.start = m.stop then
          .done (coloured.fill m.start line.size)
        else .next (coloured.moveTo m.stop)
    | (some p, source) =>
        .next
          (coloured.openRegion m
            { ruleId := id
              ending := some p
              endSource := source
              nameScopes := nameScopes
              contentScopes := withScope nameScopes rule.contentName
              depth := state.top.depth + 1 })

/- Apply a hit, once the line up to it is coloured. -/
def apply
    (engine : Engine)
    (grammar : Grammar)
    (line : Array UInt8)
    (state : LineState)
    (hit : Hit) : LineStep :=
  let m := hit.found
  match hit.origin with
  | .ending =>
      let rule := grammar.rule state.top.ruleId
      let coloured :=
        state.colour m state.top.nameScopes rule.endCaptures
      .next (coloured.closeRegion.moveTo m.stop)
  | .rule id =>
      let rule := grammar.rule id
      match rule.body with
      | .single _ captures =>
          if m.start = m.stop then
            .done (state.fill m.start line.size)
          else
            let scopes := withScope state.top.contentScopes rule.name
            .next ((state.colour m scopes captures).moveTo m.stop)
      | .region _ captures endSource ending _ _ =>
          stepRegion engine line state id rule m captures endSource ending
      | .container => .done (state.fill m.start line.size)

/- One step: find the best hit, colour the line up to it, and apply it. -/
def step
    (engine : Engine)
    (grammar : Grammar)
    (line : Array UInt8)
    (state : LineState) : LineStep :=
  match state.best? engine grammar line with
  | none => .done (state.fill state.column line.size)
  | some hit =>
      (state.fill state.column hit.found.start).apply engine grammar
        line hit

end LineState

end Marginalia

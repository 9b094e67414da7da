import Marginalia.Proofs.Token.Moves

/-
  This file proves that every line of a document comes to an
  end, with any engine whose matches stay inside the line.

  A step may leave the column where it is: it may open a region
  by an empty begin, and it may close one by an empty end.  What
  gets smaller then is the number of regions that were not yet
  opened at this column, or the depth of the stack.

  Closing a region makes the stack less deep only if there is
  another one around it.  This holds because the outermost
  region has no end: the first line starts with such a stack,
  and every step leaves one behind.

  Key definitions include:
    * `RuleStack.Rooted`, `RuleStack.Reached`
    * `LineState.measure`, `LineState.Smaller`
    * `LineState.Reaches`
    * `Grammar.zeroWidth`
  The main statements are:
    * `LineState.measure_smaller_of_moves`
    * `LineState.exists_run?_eq_some`
    * `tokenizeLine?_ends`
-/

namespace Marginalia

------------------------------------------------------------
-- Stacks
------------------------------------------------------------

namespace RuleStack

/- Every frame counts itself and the frames below it. -/
def Counted : List Frame → Prop
| [] => True
| frame :: frames =>
    frame.depth = frames.length + 1 ∧ Counted frames

/- The depth of a stack is the number of its frames then. -/
theorem depth_of_counted
    {stack : RuleStack}
    (hCounted : Counted stack.frames) :
    stack.depth = stack.frames.length := by
  rcases stack with ⟨frames⟩
  cases frames with
  | nil => rfl
  | cons frame frames => exact hCounted.1

/-
  The outermost region has no end, so it is never closed, and the
  frames are counted.
-/
structure Rooted (stack : RuleStack) : Prop where
  ending_eq : ∀ frame ∈ stack.frames.getLast?, frame.ending = none
  counted : Counted stack.frames

/- There is nothing to count where nothing is known. -/
theorem rooted_empty : Rooted RuleStack.empty where
  ending_eq := by
    intro frame hFrame
    cases hFrame
  counted := trivial

/- The stacks that lines of a grammar leave behind. -/
inductive Reached
    (engine : Engine)
    (grammar : Grammar) : RuleStack → Prop where
| empty : Reached engine grammar RuleStack.empty
| line
    {prior : RuleStack}
    {line : Bytes}
    {maxLength : Nat}
    {result : LineTokens}
    (hPrior : Reached engine grammar prior)
    (hLine :
      tokenizeLine? engine grammar line prior maxLength =
        some result) :
    Reached engine grammar result.stack

end RuleStack

namespace LineState

variable {engine : Engine}
variable {grammar : Grammar}
variable {line : Array UInt8}
variable {state next last : LineState}

/- A region that has an end has another one around it. -/
theorem below_ne_nil_of_rooted
    {pattern : Pattern}
    (hRooted : state.stack.Rooted)
    (hEnding : state.top.ending = some pattern) :
    state.below ≠ [] := by
  intro hBelow
  have hNone : state.top.ending = none := by
    apply hRooted.ending_eq
    simp [stack, hBelow]
  rw [hEnding] at hNone
  cases hNone

/- A line starts with a rooted stack if it is given one. -/
theorem start_rooted
    {prior : RuleStack}
    (hPrior : prior.Rooted) :
    (start grammar prior).stack.Rooted := by
  rcases prior with ⟨frames⟩
  cases frames with
  | nil =>
      refine ⟨?_, rfl, trivial⟩
      intro frame hFrame
      have hRoot : Frame.root grammar = frame := by
        simpa [start, stack] using hFrame
      rw [← hRoot]
      rfl
  | cons top below => exact hPrior

/- Every move leaves a rooted stack behind. -/
theorem rooted_of_moves
    (hRooted : state.stack.Rooted)
    (hMoves : Moves engine grammar line state next) :
    next.stack.Rooted := by
  cases hMoves with
  | close hBest =>
      cases hBelow : state.below with
      | nil =>
          simpa [closeRegion, colour, fill, moveTo, stack, hBelow]
            using hRooted
      | cons frame frames =>
          have hCounted := hRooted.counted
          rw [stack, hBelow] at hCounted
          refine ⟨?_, ?_⟩
          · intro outer hOuter
            apply hRooted.ending_eq
            simpa [closeRegion, colour, fill, moveTo, stack, hBelow,
              List.getLast?_cons_cons] using hOuter
          · simpa [closeRegion, colour, fill, moveTo, stack, hBelow]
              using hCounted.2
  | single hBest hBody hWide => exact hRooted
  | unending hBest hBody hRejected hWide => exact hRooted
  | enter hBest hBody hEnding hNew =>
      refine ⟨?_, ?_, hRooted.counted⟩
      · intro outer hOuter
        apply hRooted.ending_eq
        simpa [openRegion, colour, fill, stack,
          List.getLast?_cons_cons] using hOuter
      · exact congrArg (· + 1) hRooted.counted.1

------------------------------------------------------------
-- The Measure
------------------------------------------------------------

/- The regions that were not opened by an empty begin at this column. -/
def unopened
    (grammar : Grammar)
    (opened : List RuleId) : List RuleId :=
  (List.range grammar.rules.size).filter (fun id =>
    (grammar.rule id).isRegion && !opened.contains id)

/-
  The measure of a state: the columns that remain, the regions
  not yet opened at this column, and the depth of the stack.
-/
def measure
    (grammar : Grammar)
    (line : Array UInt8)
    (state : LineState) : Nat × Nat × Nat :=
  (line.size - state.column,
    (unopened grammar state.opened).length,
    state.stack.depth)

/- One measure is smaller than another, the first difference counting. -/
def Smaller : Nat × Nat × Nat → Nat × Nat × Nat → Prop :=
  Prod.Lex (· < ·) (Prod.Lex (· < ·) (· < ·))

theorem smaller_wellFounded : WellFounded Smaller :=
  (Prod.lex Nat.lt_wfRel (Prod.lex Nat.lt_wfRel Nat.lt_wfRel)).wf

/- A rule that is a region is in the table. -/
theorem lt_size_of_isRegion
    {id : RuleId}
    (hRegion : (grammar.rule id).isRegion = true) :
    id < grammar.rules.size := by
  by_cases hSize : id < grammar.rules.size
  · exact hSize
  · have hHollow : grammar.rule id = Rule.hollow := by
      simp [Grammar.rule, Array.getD_eq_getD_getElem?, hSize]
    rw [hHollow] at hRegion
    cases hRegion

/- Opening one more region leaves fewer regions unopened. -/
theorem length_unopened_cons_lt
    {id : RuleId}
    {opened : List RuleId}
    (hRegion : (grammar.rule id).isRegion = true)
    (hNew : id ∉ opened) :
    (unopened grammar (id :: opened)).length <
      (unopened grammar opened).length := by
  have hSplit :
      unopened grammar (id :: opened) =
        (unopened grammar opened).filter (fun other => other != id) := by
    unfold unopened
    rw [List.filter_filter]
    apply List.filter_congr
    intro other _
    by_cases hOther : other = id <;> simp [hOther]
  have hMember : id ∈ unopened grammar opened := by
    simp [unopened, hRegion, hNew, lt_size_of_isRegion hRegion]
  rw [hSplit]
  exact
    List.length_filter_lt_length_iff_exists.mpr
      ⟨id, hMember, by simp⟩

/- Going on at a later column of the line makes the state smaller. -/
theorem smaller_of_column_lt
    (hColumn : state.column < next.column)
    (hSize : next.column ≤ line.size) :
    Smaller (next.measure grammar line) (state.measure grammar line) := by
  apply Prod.Lex.left
  omega

/-
  At the same column it makes the state smaller to open a region
  for the first time.
-/
theorem smaller_of_opened_cons
    {id : RuleId}
    (hColumn : next.column = state.column)
    (hOpened : next.opened = id :: state.opened)
    (hRegion : (grammar.rule id).isRegion = true)
    (hNew : id ∉ state.opened) :
    Smaller (next.measure grammar line) (state.measure grammar line) := by
  unfold measure
  rw [hColumn, hOpened]
  apply Prod.Lex.right
  apply Prod.Lex.left
  exact length_unopened_cons_lt hRegion hNew

/-
  At the same column it makes the state smaller to close a
  region.
-/
theorem smaller_of_depth_lt
    (hColumn : next.column = state.column)
    (hOpened : next.opened = state.opened)
    (hDepth : next.stack.depth < state.stack.depth) :
    Smaller (next.measure grammar line) (state.measure grammar line) := by
  unfold measure
  rw [hColumn, hOpened]
  apply Prod.Lex.right
  apply Prod.Lex.right
  exact hDepth

------------------------------------------------------------
-- Progress
------------------------------------------------------------

/- Closing a region behind its end makes the state smaller. -/
theorem smaller_of_close
    {m : Match}
    {scopes : List Scope}
    {captures : CaptureNames}
    (hCounted : RuleStack.Counted state.stack.frames)
    (hBelow : state.below ≠ [])
    (hColumn : state.column ≤ m.stop)
    (hSize : m.stop ≤ line.size) :
    Smaller
      ((((state.fill state.column m.start).colour m scopes
          captures).closeRegion.moveTo m.stop).measure grammar line)
      (state.measure grammar line) := by
  cases hFrames : state.below with
  | nil => exact absurd hFrames hBelow
  | cons frame frames =>
      rcases Nat.lt_or_eq_of_le hColumn with hMove | hStay
      · apply smaller_of_column_lt _ hSize
        simpa [closeRegion, colour, fill, moveTo, hFrames] using hMove
      · apply smaller_of_depth_lt
        · simp [closeRegion, colour, fill, moveTo, hFrames, hStay]
        · simp [closeRegion, colour, fill, moveTo, openedAt, hFrames,
            hStay]
        · simp only [stack, hFrames] at hCounted
          have hTop : state.top.depth = frames.length + 1 + 1 :=
            hCounted.1
          have hFrame : frame.depth = frames.length + 1 :=
            hCounted.2.1
          simp [closeRegion, colour, fill, moveTo, stack,
            RuleStack.depth, hFrames, hTop, hFrame]

/- Opening a region behind its begin makes the state smaller. -/
theorem smaller_of_openRegion
    {m : Match}
    {frame : Frame}
    {scopes : List Scope}
    {captures : CaptureNames}
    (hRegion : (grammar.rule frame.ruleId).isRegion = true)
    (hNew : m.start = m.stop → frame.ruleId ∉ state.openedAt m.start)
    (hStart : state.column ≤ m.start)
    (hStop : m.start ≤ m.stop)
    (hSize : m.stop ≤ line.size) :
    Smaller
      ((((state.fill state.column m.start).colour m scopes
          captures).openRegion m frame).measure grammar line)
      (state.measure grammar line) := by
  rcases Nat.lt_or_eq_of_le (Nat.le_trans hStart hStop) with
    hMove | hStay
  · exact smaller_of_column_lt hMove hSize
  · have hEmpty : m.start = m.stop := by
      omega
    apply smaller_of_opened_cons hStay.symm _ hRegion
    · have hNotOpened := hNew hEmpty
      rw [hEmpty, openedAt, if_pos hStay.symm] at hNotOpened
      exact hNotOpened
    · simp [openRegion, colour, fill, openedAt, hEmpty, hStay]

/- Every move makes a state with a rooted stack smaller. -/
theorem measure_smaller_of_moves
    (hEngine : engine.StaysInside)
    (hRooted : state.stack.Rooted)
    (hMoves : Moves engine grammar line state next) :
    Smaller (next.measure grammar line) (state.measure grammar line) := by
  cases hMoves with
  | close hBest =>
      rcases bounds_of_best? hEngine hBest with
        ⟨hStart, hStop, hSize⟩
      rcases exists_ending_of_best? hBest with ⟨pattern, hEnding, _⟩
      exact
        smaller_of_close hRooted.counted
          (below_ne_nil_of_rooted hRooted hEnding)
          (Nat.le_trans hStart hStop) hSize
  | @single m _ _ _ hBest _ hWide =>
      rcases bounds_of_best? hEngine hBest with
        ⟨hStart, hStop, hSize⟩
      have hMove : state.column < m.stop := by
        dsimp only at hStart hStop
        omega
      exact smaller_of_column_lt hMove hSize
  | @unending m _ _ _ _ _ _ _ hBest _ _ hWide =>
      rcases bounds_of_best? hEngine hBest with
        ⟨hStart, hStop, hSize⟩
      have hMove : state.column < m.stop := by
        dsimp only at hStart hStop
        omega
      exact smaller_of_column_lt hMove hSize
  | enter hBest hBody hEnding hNew =>
      rcases bounds_of_best? hEngine hBest with
        ⟨hStart, hStop, hSize⟩
      refine smaller_of_openRegion ?_ hNew hStart hStop hSize
      simp [Rule.isRegion, hBody]

------------------------------------------------------------
-- Runs
------------------------------------------------------------

/- The states that the steps from a first one come to. -/
inductive Reaches
    (engine : Engine)
    (grammar : Grammar)
    (line : Array UInt8)
    (first : LineState) : LineState → Prop where
| refl : Reaches engine grammar line first first
| next
    {state next : LineState}
    (hReaches : Reaches engine grammar line first state)
    (hStep : state.step engine grammar line = .next next) :
    Reaches engine grammar line first next

/- Every state of a run has a rooted stack if the first one has. -/
theorem rooted_of_reaches
    {first : LineState}
    (hFirst : first.stack.Rooted)
    (hReaches : Reaches engine grammar line first state) :
    state.stack.Rooted := by
  induction hReaches with
  | refl => exact hFirst
  | next _ hStep ih => exact rooted_of_moves ih (moves_of_step hStep)

/- A run goes on with the state after its first step. -/
theorem run?_of_step_next
    (hStep : state.step engine grammar line = .next next) :
    state.run? engine grammar line = next.run? engine grammar line := by
  rw [run?, hStep]

/- A run ends with the state of its last step. -/
theorem run?_of_step_done
    (hStep : state.step engine grammar line = .done last) :
    state.run? engine grammar line = some last := by
  rw [run?, hStep]

/- The last step of a run leaves the stack as it is. -/
theorem stack_of_stops
    (hStops : Stops engine grammar line state last) :
    last.stack = state.stack := by
  cases hStops <;> rfl

/-
  A run from a rooted stack ends, and with a rooted stack.  The
  induction is on the measure.
-/
theorem exists_run?_eq_some
    (hEngine : engine.StaysInside)
    (line : Array UInt8)
    (hRooted : state.stack.Rooted) :
    ∃ last,
      state.run? engine grammar line = some last ∧
        last.stack.Rooted := by
  induction hMeasure : state.measure grammar line using
      smaller_wellFounded.induction generalizing state with
  | h bound ih =>
      cases hStep : state.step engine grammar line with
      | next next =>
          have hMoves := moves_of_step hStep
          have hSmaller :=
            measure_smaller_of_moves hEngine hRooted hMoves
          rw [hMeasure] at hSmaller
          rw [run?_of_step_next hStep]
          exact
            ih _ hSmaller (rooted_of_moves hRooted hMoves) rfl
      | done last =>
          refine ⟨last, run?_of_step_done hStep, ?_⟩
          rw [stack_of_stops (stops_of_step hStep)]
          exact hRooted

end LineState

------------------------------------------------------------
-- Lines
------------------------------------------------------------

/- A line ends if its stack is rooted, and leaves a rooted one. -/
theorem exists_tokenizeLine?_eq_some
    {engine : Engine}
    {prior : RuleStack}
    (hEngine : engine.StaysInside)
    (grammar : Grammar)
    (hPrior : prior.Rooted)
    (line : Bytes)
    (maxLength : Nat) :
    ∃ result,
      tokenizeLine? engine grammar line prior maxLength =
          some result ∧
        result.stack.Rooted := by
  have hStart : (LineState.start grammar prior).stack.Rooted :=
    LineState.start_rooted hPrior
  unfold tokenizeLine?
  dsimp only
  split
  · exact ⟨_, rfl, hStart⟩
  · rcases
        LineState.exists_run?_eq_some hEngine line.toArray hStart with
      ⟨last, hRun, hRooted⟩
    rw [hRun]
    exact ⟨_, rfl, hRooted⟩

/- Lines leave rooted stacks behind. -/
theorem RuleStack.rooted_of_reached
    {engine : Engine}
    {grammar : Grammar}
    {stack : RuleStack}
    (hEngine : engine.StaysInside)
    (hReached : stack.Reached engine grammar) :
    stack.Rooted := by
  induction hReached with
  | empty => exact rooted_empty
  | @line prior line maxLength result _ hLine ih =>
      rcases
          exists_tokenizeLine?_eq_some hEngine grammar ih line
            maxLength with
        ⟨other, hOther, hRooted⟩
      rw [hLine] at hOther
      cases hOther
      exact hRooted

/-
  Every line ends, whatever lines came before it, and every step
  on the way makes the measure smaller in a well-founded order.
  All that is asked of the engine is that its matches start no
  earlier than the search and stay inside the line.
-/
theorem tokenizeLine?_ends
    {engine : Engine}
    {grammar : Grammar}
    {prior : RuleStack}
    (hEngine : engine.StaysInside)
    (hPrior : prior.Reached engine grammar)
    (line : Bytes)
    (maxLength : Nat) :
    (∃ result,
        tokenizeLine? engine grammar line prior maxLength =
          some result) ∧
      WellFounded LineState.Smaller ∧
      ∀ {state next : LineState},
        LineState.Reaches engine grammar line.toArray
            (LineState.start grammar prior) state →
          state.step engine grammar line.toArray = .next next →
            LineState.Smaller
              (next.measure grammar line.toArray)
              (state.measure grammar line.toArray) := by
  have hRooted := RuleStack.rooted_of_reached hEngine hPrior
  refine ⟨?_, LineState.smaller_wellFounded, ?_⟩
  · rcases
        exists_tokenizeLine?_eq_some hEngine grammar hRooted line
          maxLength with
      ⟨result, hResult, _⟩
    exact ⟨result, hResult⟩
  · intro state next hReaches hStep
    have hState :=
      LineState.rooted_of_reaches (LineState.start_rooted hRooted)
        hReaches
    exact
      LineState.measure_smaller_of_moves hEngine hState
        (LineState.moves_of_step hStep)

------------------------------------------------------------
-- Empty Matches
------------------------------------------------------------

namespace Grammar

/- A pattern that matches nothing in front of a byte. -/
def inFrontOf (b : UInt8) : Pattern :=
  { groupCount := 0
    root := .ahead true (.byte (ByteSet.single false b)) }

/-
  A grammar with a single rule and a region that match nothing
  in front of `a` and `b`.  The region may be opened inside
  itself, and its end is found where its begin is.
-/
def zeroWidth : Grammar :=
  { engine := .standard
    scopeName := utf8 "source.zero"
    rules :=
      #[{ name := []
          contentName := []
          body := .container
          patterns := [1, 2]
          candidates := [1, 2] },
        { name := utf8 "meta.empty"
          contentName := []
          body := .single (some (inFrontOf 97)) []
          patterns := []
          candidates := [] },
        { name := utf8 "meta.lookahead"
          contentName := []
          body :=
            .region (some (inFrontOf 98)) [] (utf8 "(?=b)")
              (.fixed (some (inFrontOf 98))) [] false
          patterns := [1, 2]
          candidates := [1, 2] }] }

end Grammar

/-
  With empty matches two lines end, the second one starting from
  the stack that the first one leaves behind.
-/
theorem tokenizeLine?_ends_zeroWidth :
    ∃ first,
      tokenizeLine? Engine.standard Grammar.zeroWidth (utf8 "bbb")
          RuleStack.empty 0 =
        some first ∧
      ∃ second,
        tokenizeLine? Engine.standard Grammar.zeroWidth
            (utf8 "xxabc") first.stack 20000 =
          some second := by
  have hStart :
      RuleStack.empty.Reached Engine.standard Grammar.zeroWidth :=
    .empty
  rcases
      (tokenizeLine?_ends Engine.standard_staysInside hStart
        (utf8 "bbb") 0).1 with
    ⟨first, hFirst⟩
  refine ⟨first, hFirst, ?_⟩
  exact
    (tokenizeLine?_ends Engine.standard_staysInside
      (.line hStart hFirst) (utf8 "xxabc") 20000).1

end Marginalia

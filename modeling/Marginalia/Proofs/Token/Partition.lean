import Mathlib.Data.List.Chain
import Marginalia.Proofs.Token.Termination

/-
  This file proves that the tokens of a line partition it: they
  leave no gap, do not overlap, are not empty, and no two
  neighbours have the same scopes.

  While a line is cut, its tokens are kept in reverse, so the
  invariant is about reversed lists: they tile the line up to a
  column.  Pushing a part that starts at that column keeps it,
  and all tokens of a line are pushed in this way.  The pieces of
  a match are pushed in the order of its cuts, of which those
  outside the match are passed over.

  Key definitions include:
    * `Tokens.Partition`, `Tokens.Tiles`
    * `tokenizeLines?`
  The main statements are:
    * `Tokens.tiles_push`
    * `Captures.tiles_emit`
    * `tokenizeLines?_partition`
-/

namespace Marginalia

------------------------------------------------------------
-- Partitions
------------------------------------------------------------

namespace Tokens

/- The tokens partition a line of this length. -/
structure Partition (length : Nat) (tokens : List Token) : Prop where
  start_of_first : ∀ token ∈ tokens.head?, token.start = 0
  start_of_next :
    tokens.IsChain (fun token next => next.start = token.stop)
  start_lt_stop : ∀ token ∈ tokens, token.start < token.stop
  stop_of_last : ∀ token ∈ tokens.getLast?, token.stop = length
  eq_nil_iff : tokens = [] ↔ length = 0
  scopes_ne :
    tokens.IsChain (fun token next => token.scopes ≠ next.scopes)

/- The tokens, which are in reverse, tile a line up to a column. -/
def Tiles : List Token → Nat → Prop
| [], column => column = 0
| token :: before, column =>
    token.stop = column ∧ token.start < token.stop ∧
      (∀ last ∈ before.head?, last.scopes ≠ token.scopes) ∧
        Tiles before token.start

/- The first token of a tiling starts where the line does. -/
theorem start_of_tiles
    (tokens : List Token) :
    ∀ {column : Nat},
      Tiles tokens column →
        ∀ token ∈ tokens.getLast?, token.start = 0 := by
  induction tokens with
  | nil =>
      intro column _ token hToken
      cases hToken
  | cons last before ih =>
      intro column hTiles token hToken
      rcases hTiles with ⟨_, _, _, hBefore⟩
      cases before with
      | nil =>
          have hLast : last = token := by
            simpa using hToken
          rw [← hLast]
          exact hBefore
      | cons next rest =>
          apply ih hBefore
          simpa [List.getLast?_cons_cons] using hToken

/- Each token of a tiling starts where the one before it stops. -/
theorem isChain_of_tiles
    (tokens : List Token) :
    ∀ {column : Nat},
      Tiles tokens column →
        tokens.IsChain (fun token before =>
          token.start = before.stop ∧
            before.scopes ≠ token.scopes) := by
  induction tokens with
  | nil =>
      intro column _
      exact List.IsChain.nil
  | cons token before ih =>
      intro column hTiles
      rcases hTiles with ⟨_, _, hScopes, hBefore⟩
      cases before with
      | nil => exact List.IsChain.singleton token
      | cons last rest =>
          rw [List.isChain_cons_cons]
          refine ⟨⟨hBefore.1.symm, ?_⟩, ih hBefore⟩
          exact hScopes last rfl

/- No token of a tiling is empty. -/
theorem start_lt_stop_of_tiles
    (tokens : List Token) :
    ∀ {column : Nat},
      Tiles tokens column →
        ∀ token ∈ tokens, token.start < token.stop := by
  induction tokens with
  | nil =>
      intro column _ token hToken
      cases hToken
  | cons last before ih =>
      intro column hTiles token hToken
      rcases hTiles with ⟨_, hWide, _, hBefore⟩
      rcases List.mem_cons.mp hToken with rfl | hRest
      · exact hWide
      · exact ih hBefore token hRest

/- A tiling up to the end of a line is a partition of it. -/
theorem partition_of_tiles
    {tokens : List Token}
    {length : Nat}
    (hTiles : Tiles tokens length) :
    Partition length tokens.reverse where
  start_of_first := by
    rw [List.head?_reverse]
    exact start_of_tiles tokens hTiles
  start_of_next := by
    rw [List.isChain_reverse]
    exact (isChain_of_tiles tokens hTiles).imp (fun _ _ h => h.1)
  start_lt_stop := by
    intro token hToken
    exact
      start_lt_stop_of_tiles tokens hTiles token
        (List.mem_reverse.mp hToken)
  stop_of_last := by
    rw [List.getLast?_reverse]
    cases tokens with
    | nil =>
        intro token hToken
        cases hToken
    | cons last before =>
        intro token hToken
        have hLast : last = token := by
          simpa using hToken
        rw [← hLast]
        exact hTiles.1
  eq_nil_iff := by
    rw [List.reverse_eq_nil_iff]
    cases tokens with
    | nil =>
        have hZero : length = 0 := hTiles
        simp [hZero]
    | cons last before =>
        rcases hTiles with ⟨hStop, hWide, _, _⟩
        have hPositive : length ≠ 0 := by
          omega
        simp [hPositive]
  scopes_ne := by
    rw [List.isChain_reverse]
    exact (isChain_of_tiles tokens hTiles).imp (fun _ _ h => h.2)

------------------------------------------------------------
-- Pushing
------------------------------------------------------------

/- A part that starts where a tiling stops lengthens the tiling. -/
theorem tiles_push
    {tokens : List Token}
    {start stop : Nat}
    (hTiles : Tiles tokens start)
    (hStop : start ≤ stop)
    (scopes : List Scope) :
    Tiles (push tokens start stop scopes) stop := by
  unfold push
  split
  · next hEmpty =>
      have hSame : start = stop := by
        omega
      rw [← hSame]
      exact hTiles
  · next hWide =>
      have hLt : start < stop := by
        omega
      cases tokens with
      | nil =>
          refine ⟨rfl, hLt, ?_, hTiles⟩
          intro last hLast
          cases hLast
      | cons last before =>
          dsimp only
          split
          · rcases hTiles with ⟨hLast, hLastWide, hScopes, hBefore⟩
            refine ⟨rfl, ?_, hScopes, hBefore⟩
            dsimp only
            omega
          · next hDiffer =>
              refine ⟨rfl, hLt, ?_, hTiles⟩
              intro other hOther
              have hSame : last = other := by
                simpa using hOther
              rw [← hSame]
              intro hScopes
              exact hDiffer ⟨hTiles.1, hScopes⟩

end Tokens

------------------------------------------------------------
-- Matches
------------------------------------------------------------

namespace Captures

/- A column that is put into its place is listed. -/
theorem mem_insertCut_iff
    {column cut : Nat}
    (cuts : List Nat) :
    cut ∈ insertCut column cuts ↔ cut = column ∨ cut ∈ cuts := by
  induction cuts with
  | nil => simp [insertCut]
  | cons c rest ih =>
      unfold insertCut
      split
      · simp
      · split
        · next hSame =>
            subst hSame
            simp
        · simp only [List.mem_cons, ih]
          tauto

/- The cuts stay in order. -/
theorem pairwise_insertCut
    (column : Nat)
    (cuts : List Nat)
    (hCuts : cuts.Pairwise (· < ·)) :
    (insertCut column cuts).Pairwise (· < ·) := by
  induction cuts with
  | nil => simp [insertCut]
  | cons c rest ih =>
      rcases List.pairwise_cons.mp hCuts with ⟨hFirst, hRest⟩
      unfold insertCut
      split
      · next hLt =>
          refine List.pairwise_cons.mpr ⟨?_, hCuts⟩
          intro cut hCut
          rcases List.mem_cons.mp hCut with rfl | hLater
          · exact hLt
          · exact Nat.lt_trans hLt (hFirst cut hLater)
      · split
        · exact hCuts
        · next hNotLt hNotSame =>
            refine List.pairwise_cons.mpr ⟨?_, ih hRest⟩
            intro cut hCut
            rcases (mem_insertCut_iff rest).mp hCut with rfl | hLater
            · omega
            · exact hFirst cut hLater

/- The cuts of a match are in order, and its two ends are among them. -/
theorem cuts_properties
    (m : Match)
    (hWide : m.start < m.stop)
    (spans : List NamedSpan) :
    (cuts m spans).Pairwise (· < ·) ∧
      m.start ∈ cuts m spans ∧ m.stop ∈ cuts m spans := by
  induction spans with
  | nil => simp [cuts, insertCut, hWide]
  | cons span spans ih =>
      rcases ih with ⟨hOrder, hStart, hStop⟩
      have hCons :
          cuts m (span :: spans) =
            insertCut (max span.start m.start)
              (insertCut (min span.stop m.stop) (cuts m spans)) := rfl
      rw [hCons]
      refine ⟨?_, ?_, ?_⟩
      · exact
          pairwise_insertCut _ _ (pairwise_insertCut _ _ hOrder)
      · simp [mem_insertCut_iff, hStart]
      · simp [mem_insertCut_iff, hStop]

/- A column that is a cut or lies before all cuts. -/
def IsPassed (cuts : List Nat) (column : Nat) : Prop :=
  column ∈ cuts ∨ ∃ first ∈ cuts.head?, column < first

/- It is so too once the first cut is taken away. -/
theorem isPassed_tail
    {a b column : Nat}
    {rest : List Nat}
    (hStep : a < b)
    (hPassed : IsPassed (a :: b :: rest) column) :
    IsPassed (b :: rest) column := by
  rcases hPassed with hMember | ⟨first, hFirst, hLt⟩
  · rcases List.mem_cons.mp hMember with hSame | hTail
    · right
      exact ⟨b, rfl, by omega⟩
    · exact Or.inl hTail
  · have hSame : a = first := Option.some.inj hFirst
    right
    exact ⟨b, rfl, by omega⟩

/- It does not lie between the first two cuts. -/
theorem le_or_le_of_isPassed
    {a b column : Nat}
    {rest : List Nat}
    (hOrder : (a :: b :: rest).Pairwise (· < ·))
    (hPassed : IsPassed (a :: b :: rest) column) :
    column ≤ a ∨ b ≤ column := by
  have hRest := (List.pairwise_cons.mp hOrder).2
  rcases hPassed with hMember | ⟨first, hFirst, hLt⟩
  · rcases List.mem_cons.mp hMember with hSame | hTail
    · exact Or.inl (Nat.le_of_eq hSame)
    · rcases List.mem_cons.mp hTail with hNext | hLater
      · exact Or.inr (Nat.le_of_eq hNext.symm)
      · right
        have hLt := (List.pairwise_cons.mp hRest).1 column hLater
        exact Nat.le_of_lt hLt
  · have hSame : a = first := Option.some.inj hFirst
    left
    omega

/- The first cut of a match is not behind its start. -/
theorem exists_cuts_eq
    (m : Match)
    (hWide : m.start < m.stop)
    (spans : List NamedSpan) :
    ∃ a rest,
      cuts m spans = a :: rest ∧ a ≤ m.start ∧
        (a :: rest).Pairwise (· < ·) ∧
          IsPassed (a :: rest) m.start ∧ IsPassed (a :: rest) m.stop := by
  rcases cuts_properties m hWide spans with ⟨hOrder, hStart, hStop⟩
  cases hCuts : cuts m spans with
  | nil =>
      rw [hCuts] at hStart
      cases hStart
  | cons a rest =>
      rw [hCuts] at hOrder hStart hStop
      have hFirst : a ≤ m.start := by
        rcases List.mem_cons.mp hStart with hSame | hTail
        · exact Nat.le_of_eq hSame.symm
        · exact
            Nat.le_of_lt
              ((List.pairwise_cons.mp hOrder).1 _ hTail)
      exact
        ⟨a, rest, rfl, hFirst, hOrder, Or.inl hStart, Or.inl hStop⟩

/-
  The pieces between cuts tile a match.  So far they tile it up
  to the cut `a`, or to the end of the match that is nearer if
  `a` lies outside it.
-/
theorem tiles_emitPieces
    {m : Match}
    (hBounds : m.start ≤ m.stop)
    (base : List Scope)
    (spans : List NamedSpan)
    (rest : List Nat) :
    ∀ (a : Nat) (tokens : List Token),
      (a :: rest).Pairwise (· < ·) →
        IsPassed (a :: rest) m.start →
          IsPassed (a :: rest) m.stop →
            Tokens.Tiles tokens (max m.start (min a m.stop)) →
              Tokens.Tiles
                (emitPieces m base spans (a :: rest) tokens)
                m.stop := by
  induction rest with
  | nil =>
      intro a tokens _ _ hStop hTiles
      have hReached : m.stop ≤ a := by
        rcases hStop with hMember | ⟨first, hFirst, hLt⟩
        · exact Nat.le_of_eq (List.mem_singleton.mp hMember)
        · have hSame : a = first := Option.some.inj hFirst
          omega
      have hColumn : max m.start (min a m.stop) = m.stop := by
        omega
      rw [hColumn] at hTiles
      exact hTiles
  | cons b rest ih =>
      intro a tokens hOrder hStart hStop hTiles
      rcases List.pairwise_cons.mp hOrder with ⟨hFirst, hRest⟩
      have hStep : a < b := hFirst b List.mem_cons_self
      unfold emitPieces
      dsimp only
      apply
        ih b _ hRest (isPassed_tail hStep hStart)
          (isPassed_tail hStep hStop)
      split
      · next hOutside =>
          -- A piece outside the match moves no end of the tiling.
          have hFrom := le_or_le_of_isPassed hOrder hStart
          have hTo := le_or_le_of_isPassed hOrder hStop
          have hColumn :
              max m.start (min b m.stop) =
                max m.start (min a m.stop) := by
            rcases hOutside with hEarly | hLate
            · omega
            · omega
          rw [hColumn]
          exact hTiles
      · next hInside =>
          have hFrom : max m.start (min a m.stop) = a := by
            omega
          have hTo : max m.start (min b m.stop) = b := by
            omega
          rw [hFrom] at hTiles
          rw [hTo]
          exact Tokens.tiles_push hTiles (Nat.le_of_lt hStep) _

/- A coloured match tiles the line from its start to its stop. -/
theorem tiles_emit
    {m : Match}
    {tokens : List Token}
    (hTiles : Tokens.Tiles tokens m.start)
    (hBounds : m.start ≤ m.stop)
    (base : List Scope)
    (captures : CaptureNames) :
    Tokens.Tiles (emit m base captures tokens) m.stop := by
  unfold emit
  split
  · next hEmpty =>
      have hSame : m.start = m.stop := by
        omega
      rw [← hSame]
      exact hTiles
  · next hWide =>
      dsimp only
      rcases exists_cuts_eq m (by omega) (spans m captures) with
        ⟨a, rest, hCuts, hFirst, hOrder, hStart, hStop⟩
      have hColumn : max m.start (min a m.stop) = m.start := by
        omega
      rw [hCuts]
      apply
        tiles_emitPieces hBounds base _ rest a tokens hOrder hStart hStop
      rw [hColumn]
      exact hTiles

end Captures

------------------------------------------------------------
-- Lines
------------------------------------------------------------

namespace LineState

variable {engine : Engine}
variable {grammar : Grammar}
variable {line : Array UInt8}
variable {state next last : LineState}

/- The line is tiled up to the column of the state, which is in it. -/
structure Tiled (line : Array UInt8) (state : LineState) : Prop where
  column_le : state.column ≤ line.size
  tiles : Tokens.Tiles state.tokens state.column

/- Colouring the line up to a hit, and then the hit. -/
theorem tiles_colour_fill
    {hit : Hit}
    (hEngine : engine.StaysInside)
    (hTiled : state.Tiled line)
    (hBest : state.best? engine grammar line = some hit)
    (scopes : List Scope)
    (captures : CaptureNames) :
    Tokens.Tiles
      ((state.fill state.column hit.found.start).colour hit.found
        scopes captures).tokens
      hit.found.stop := by
  rcases bounds_of_best? hEngine hBest with ⟨hStart, hStop, _⟩
  have hFilled :=
    Tokens.tiles_push hTiled.tiles hStart state.top.contentScopes
  exact Captures.tiles_emit hFilled hStop scopes captures

/- Every move tiles the line up to its new column. -/
theorem tiled_of_moves
    (hEngine : engine.StaysInside)
    (hTiled : state.Tiled line)
    (hMoves : Moves engine grammar line state next) :
    next.Tiled line := by
  cases hMoves with
  | @close m hBest =>
      have hTiles :=
        tiles_colour_fill hEngine hTiled hBest state.top.nameScopes
          (grammar.rule state.top.ruleId).endCaptures
      refine ⟨(bounds_of_best? hEngine hBest).2.2, ?_⟩
      cases hBelow : state.below with
      | nil =>
          simpa [closeRegion, moveTo, colour, fill, hBelow]
            using hTiles
      | cons frame frames =>
          simpa [closeRegion, moveTo, colour, fill, hBelow]
            using hTiles
  | single hBest hBody hWide =>
      exact
        ⟨(bounds_of_best? hEngine hBest).2.2,
          tiles_colour_fill hEngine hTiled hBest _ _⟩
  | unending hBest hBody hRejected hWide =>
      exact
        ⟨(bounds_of_best? hEngine hBest).2.2,
          tiles_colour_fill hEngine hTiled hBest _ _⟩
  | enter hBest hBody hEnding hNew =>
      exact
        ⟨(bounds_of_best? hEngine hBest).2.2,
          tiles_colour_fill hEngine hTiled hBest _ _⟩

/- The last step tiles the line up to its end. -/
theorem tiles_of_stops
    (hEngine : engine.StaysInside)
    (hTiled : state.Tiled line)
    (hStops : Stops engine grammar line state last) :
    Tokens.Tiles last.tokens line.size := by
  cases hStops with
  | nothing hBest =>
      exact Tokens.tiles_push hTiled.tiles hTiled.column_le _
  | @idle hit hBest =>
      rcases bounds_of_best? hEngine hBest with
        ⟨hStart, hStop, hSize⟩
      have hFilled :=
        Tokens.tiles_push hTiled.tiles hStart state.top.contentScopes
      exact Tokens.tiles_push hFilled (Nat.le_trans hStop hSize) _
  | @unending hit scopes captures hBest hEmpty =>
      rcases bounds_of_best? hEngine hBest with
        ⟨hStart, hStop, hSize⟩
      have hColoured :=
        tiles_colour_fill hEngine hTiled hBest scopes captures
      rw [← hEmpty] at hColoured
      exact Tokens.tiles_push hColoured (Nat.le_trans hStop hSize) _

/-
  A run that ends has tiled the line.  The induction is on the
  steps of the run.
-/
theorem tiles_of_run?
    (hEngine : engine.StaysInside)
    (hRooted : state.stack.Rooted)
    (hTiled : state.Tiled line)
    (hRun : state.run? engine grammar line = some last) :
    Tokens.Tiles last.tokens line.size := by
  induction hMeasure : state.measure grammar line using
      smaller_wellFounded.induction generalizing state with
  | h bound ih =>
      cases hStep : state.step engine grammar line with
      | next next =>
          have hMoves := moves_of_step hStep
          have hSmaller :=
            measure_smaller_of_moves hEngine hRooted hMoves
          rw [hMeasure] at hSmaller
          rw [run?_of_step_next hStep] at hRun
          exact
            ih _ hSmaller (rooted_of_moves hRooted hMoves)
              (tiled_of_moves hEngine hTiled hMoves) hRun rfl
      | done other =>
          rw [run?_of_step_done hStep] at hRun
          cases hRun
          exact tiles_of_stops hEngine hTiled (stops_of_step hStep)

end LineState

/- The tokens of a line partition it. -/
theorem partition_of_tokenizeLine?
    {engine : Engine}
    {grammar : Grammar}
    {line : Bytes}
    {prior : RuleStack}
    {maxLength : Nat}
    {result : LineTokens}
    (hEngine : engine.StaysInside)
    (hPrior : prior.Rooted)
    (hLine :
      tokenizeLine? engine grammar line prior maxLength =
        some result) :
    Tokens.Partition line.length result.tokens := by
  have hNothing :
      Tokens.Tiles (LineState.start grammar prior).tokens 0 := rfl
  unfold tokenizeLine? at hLine
  dsimp only at hLine
  split at hLine
  · cases hLine
    exact
      Tokens.partition_of_tiles
        (Tokens.tiles_push hNothing (Nat.zero_le _) _)
  · rcases Option.map_eq_some_iff.mp hLine with ⟨last, hRun, rfl⟩
    have hTiles :=
      LineState.tiles_of_run? hEngine
        (LineState.start_rooted hPrior)
        ⟨Nat.zero_le _, hNothing⟩ hRun
    rw [List.size_toArray] at hTiles
    exact Tokens.partition_of_tiles hTiles

------------------------------------------------------------
-- Sequences of Lines
------------------------------------------------------------

/-
  Cut lines into tokens one after the other, each with a limit
  of its own and from the stack of the line before it.
-/
def tokenizeLines?
    (engine : Engine)
    (grammar : Grammar) :
    RuleStack → List (Bytes × Nat) → Option (List LineTokens)
| _, [] => some []
| prior, (line, maxLength) :: lines =>
    match tokenizeLine? engine grammar line prior maxLength with
    | none => none
    | some result =>
        (tokenizeLines? engine grammar result.stack lines).map
          (fun results => result :: results)

/- From a rooted stack, all lines are cut, and each is partitioned. -/
theorem exists_tokenizeLines?_partition
    {engine : Engine}
    {grammar : Grammar}
    (hEngine : engine.StaysInside)
    (lines : List (Bytes × Nat)) :
    ∀ {prior : RuleStack},
      prior.Rooted →
        ∃ results,
          tokenizeLines? engine grammar prior lines = some results ∧
            List.Forall₂
              (fun line result =>
                Tokens.Partition line.1.length result.tokens)
              lines results := by
  induction lines with
  | nil =>
      intro prior _
      exact ⟨[], rfl, List.Forall₂.nil⟩
  | cons line lines ih =>
      intro prior hPrior
      rcases line with ⟨text, maxLength⟩
      rcases
          exists_tokenizeLine?_eq_some hEngine grammar hPrior text
            maxLength with
        ⟨result, hLine, hRooted⟩
      rcases ih hRooted with ⟨results, hLines, hPartitions⟩
      refine ⟨result :: results, ?_, ?_⟩
      · simp [tokenizeLines?, hLine, hLines]
      · exact
          List.Forall₂.cons
            (partition_of_tokenizeLine? hEngine hPrior hLine)
            hPartitions

/-
  The lines of a document, cut from its start with any limits,
  are each partitioned by their tokens.  All that is asked of
  the engine is that its matches start no earlier than the
  search and stay inside the line; the groups of a match may lie
  anywhere.
-/
theorem tokenizeLines?_partition
    {engine : Engine}
    (hEngine : engine.StaysInside)
    (grammar : Grammar)
    (lines : List (Bytes × Nat)) :
    ∃ results,
      tokenizeLines? engine grammar RuleStack.empty lines =
          some results ∧
        List.Forall₂
          (fun line result =>
            Tokens.Partition line.1.length result.tokens)
          lines results := by
  exact
    exists_tokenizeLines?_partition hEngine lines
      RuleStack.rooted_empty

/- The tokens partition lines with empty matches, and an empty line. -/
theorem tokenizeLines?_partition_zeroWidth :
    ∃ results,
      tokenizeLines? Engine.standard Grammar.zeroWidth
          RuleStack.empty
          [(utf8 "xxabc", 0), (utf8 "bbb", 2), ([], 0)] =
        some results ∧
      List.Forall₂
        (fun line result =>
          Tokens.Partition line.1.length result.tokens)
        [(utf8 "xxabc", 0), (utf8 "bbb", 2), ([], 0)] results :=
  tokenizeLines?_partition Engine.standard_staysInside
    Grammar.zeroWidth
    [(utf8 "xxabc", 0), (utf8 "bbb", 2), ([], 0)]

end Marginalia

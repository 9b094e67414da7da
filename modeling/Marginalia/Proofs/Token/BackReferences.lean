import Marginalia.Proofs.Grammar.Evaluation
import Marginalia.Proofs.Token.Stacks

/-
  This file says how the source of an end is filled in when a
  region is opened.

  A source is read from left to right, a backslash together with
  the byte behind it.  What refers to a group is replaced by the
  text of the group, written as a pattern; all else stays.  The
  text may be anything: where it is put in, it is read again as
  bytes that stand for themselves, so it refers to nothing and
  joins nothing of what is around it.

  Key definitions include:
    * `SourceUnit`, `SourceUnit.ofSource`
    * `SourceUnit.reference?`, `SourceUnit.filled`
    * `BackReference.FilledIn`, `BackReference.unitsFor`
    * `LineStep.next?`
  The main statements are:
    * `BackReference.occurs_iff`
    * `BackReference.resolve_eq_flatMap`
    * `BackReference.ofSource_resolve`
    * `Grammar.endSource_of_step`
-/

namespace Marginalia

------------------------------------------------------------
-- Units
------------------------------------------------------------

/- What is read of a source at once: a byte, or one behind a backslash. -/
inductive SourceUnit where
| escaped (b : UInt8)
| plain (b : UInt8)
deriving DecidableEq, Repr

namespace SourceUnit

/- The unit as it is written. -/
def bytes : SourceUnit → Bytes
| .escaped b => [Ascii.backslash, b]
| .plain b => [b]

/- The units of a source.  A backslash at its end is a byte by itself. -/
def ofSource : Bytes → List SourceUnit
| Ascii.backslash :: b :: rest => .escaped b :: ofSource rest
| b :: rest => .plain b :: ofSource rest
| [] => []

/- The group that a unit refers to: a backslash and a digit but zero. -/
def reference? : SourceUnit → Option Nat
| .escaped b => if 49 ≤ b ∧ b ≤ 57 then some (b.toNat - 48) else none
| .plain _ => none

/-
  What stands for the unit in the end of a region that a match
  opens: a pattern for the text of the group that it refers to,
  or else the unit itself.
-/
def filled
    (line : Array UInt8)
    (m : Match)
    (unit : SourceUnit) : Bytes :=
  match unit.reference? with
  | none => unit.bytes
  | some number =>
      match m.group? number with
      | none => []
      | some span =>
          Pattern.escape (line.extract span.start span.stop).toList

/- The units of a text that is written as a pattern. -/
def literal (text : Bytes) : List SourceUnit :=
  text.map (fun b =>
    if Pattern.isSpecial b then .escaped b else .plain b)

/- Reading loses nothing of a source. -/
theorem flatMap_bytes_ofSource
    (source : Bytes) :
    (ofSource source).flatMap bytes = source := by
  fun_induction ofSource source with
  | case1 b rest ih => rw [List.flatMap_cons, ih]; rfl
  | case2 b rest hPlain ih => rw [List.flatMap_cons, ih]; rfl
  | case3 => rfl

theorem ofSource_escaped
    (b : UInt8)
    (rest : Bytes) :
    ofSource (Ascii.backslash :: b :: rest) = .escaped b :: ofSource rest :=
  rfl

/- The last byte is a unit, also if it is a backslash. -/
theorem ofSource_single
    (b : UInt8) :
    ofSource [b] = [.plain b] := by
  rw [ofSource]
  · rfl
  · intro _ _ _ hMore
    cases hMore

/- A byte other than a backslash is a unit, whatever follows it. -/
theorem ofSource_cons_of_ne
    {b : UInt8}
    (hByte : b ≠ Ascii.backslash)
    (rest : Bytes) :
    ofSource (b :: rest) = .plain b :: ofSource rest := by
  rw [ofSource]
  intro _ _ hBackslash _
  exact hByte hBackslash

/- A text that is written as a pattern is read apart from what follows. -/
theorem ofSource_escape_append
    (text rest : Bytes) :
    ofSource (Pattern.escape text ++ rest) = literal text ++ ofSource rest := by
  induction text with
  | nil => rfl
  | cons b text ih =>
      unfold Pattern.escape literal
      rw [List.map_cons]
      cases hSpecial : Pattern.isSpecial b with
      | true =>
          simp only [if_true, List.cons_append]
          rw [ofSource_escaped, ih]
          rfl
      | false =>
          have hByte : b ≠ Ascii.backslash := by
            rintro rfl
            revert hSpecial
            decide
          simp only [Bool.false_eq_true, if_false, List.cons_append]
          rw [ofSource_cons_of_ne hByte, ih]
          rfl

/- It refers to nothing, for no digit is special. -/
theorem reference?_of_mem_literal
    {unit : SourceUnit}
    (text : Bytes)
    (hUnit : unit ∈ literal text) :
    unit.reference? = none := by
  rcases List.mem_map.mp hUnit with ⟨b, _, rfl⟩
  cases hSpecial : Pattern.isSpecial b with
  | false => rfl
  | true =>
      have hNoDigit :
          ∀ special ∈ utf8 "\\^$.|?*+()[]\x7b\x7d# ",
            ¬(49 ≤ special ∧ special ≤ 57) := by
        decide +kernel
      exact if_neg (hNoDigit b (List.contains_iff_mem.mp hSpecial))

/- A unit that refers to a group is filled in with the text of it. -/
theorem filled_of_reference?
    {line : Array UInt8}
    {m : Match}
    {unit : SourceUnit}
    {number : Nat}
    (hReference : unit.reference? = some number) :
    unit.filled line m =
      Pattern.escape (BackReference.groupText line m number) := by
  unfold filled BackReference.groupText
  rw [hReference]
  dsimp only
  cases m.group? number with
  | none => rfl
  | some span => rfl

theorem filled_of_reference?_eq_none
    {line : Array UInt8}
    {m : Match}
    {unit : SourceUnit}
    (hReference : unit.reference? = none) :
    unit.filled line m = unit.bytes := by
  unfold filled
  rw [hReference]

end SourceUnit

------------------------------------------------------------
-- Sources That Are Filled In
------------------------------------------------------------

namespace BackReference

open SourceUnit

/-
  A source is filled in for a match: unit by unit, and so that
  nothing in it refers to a group any more.
-/
structure FilledIn
    (line : Array UInt8)
    (m : Match)
    (source result : Bytes) : Prop where
  eq_flatMap : result = (ofSource source).flatMap (filled line m)
  reference?_eq_none : ∀ unit ∈ ofSource result, unit.reference? = none

/- The unit of a backslash and a digit refers to the group. -/
theorem reference?_of_isGroupDigit
    {b : UInt8}
    (hDigit : isGroupDigit b = true) :
    (SourceUnit.escaped b).reference? = some (b.toNat - 48) := by
  apply if_pos
  simpa [isGroupDigit] using hDigit

theorem reference?_of_not_isGroupDigit
    {b : UInt8}
    (hOther : ¬isGroupDigit b = true) :
    (SourceUnit.escaped b).reference? = none := by
  apply if_neg
  simpa [isGroupDigit] using hOther

/- A source refers to a group if one of its units does. -/
theorem occurs_iff
    (source : Bytes) :
    occurs source = true ↔
      ∃ unit ∈ ofSource source, unit.reference? ≠ none := by
  fun_induction ofSource source with
  | case1 b rest ih =>
      rw [occurs, Bool.or_eq_true, ih, List.exists_mem_cons_iff]
      by_cases hDigit : isGroupDigit b = true
      · simp [hDigit, reference?_of_isGroupDigit hDigit]
      · simp [hDigit, reference?_of_not_isGroupDigit hDigit]
  | case2 b rest hPlain ih =>
      rw [occurs, ih, List.exists_mem_cons_iff]
      · simp [reference?]
      · exact hPlain
  | case3 => simp [occurs]

/- Resolving a source fills in its units one after the other. -/
theorem resolve_eq_flatMap
    (line : Array UInt8)
    (m : Match)
    (source : Bytes) :
    resolve line m source = (ofSource source).flatMap (filled line m) := by
  fun_induction ofSource source with
  | case1 b rest ih =>
      rw [resolve, List.flatMap_cons, ih]
      split
      · next hDigit =>
          rw [filled_of_reference? (reference?_of_isGroupDigit hDigit)]
      · next hOther =>
          rw [filled_of_reference?_eq_none
            (reference?_of_not_isGroupDigit hOther)]
          rfl
  | case2 b rest hPlain ih =>
      rw [resolve, List.flatMap_cons, ih]
      · rfl
      · exact hPlain
  | case3 => rfl

/- A source that refers to nothing is its own resolution. -/
theorem resolve_of_not_occurs
    {source : Bytes}
    (hOccurs : occurs source = false)
    (line : Array UInt8)
    (m : Match) :
    resolve line m source = source := by
  have hNone : ∀ unit ∈ ofSource source, unit.reference? = none := by
    intro unit hUnit
    by_contra hSome
    have hTrue := (occurs_iff source).mpr ⟨unit, hUnit, hSome⟩
    rw [hOccurs] at hTrue
    cases hTrue
  calc
    resolve line m source
        = (ofSource source).flatMap (filled line m) :=
          resolve_eq_flatMap line m source
    _ = (ofSource source).flatMap bytes := by
          apply List.flatMap_congr
          intro unit hUnit
          exact filled_of_reference?_eq_none (hNone unit hUnit)
    _ = source := flatMap_bytes_ofSource source

/- The units that stand for a unit once the source is resolved. -/
def unitsFor
    (line : Array UInt8)
    (m : Match)
    (unit : SourceUnit) : List SourceUnit :=
  match unit.reference? with
  | none => [unit]
  | some number => literal (groupText line m number)

/-
  The units of a resolved source are the units of the source, with
  the units of a text in place of each reference.  No unit lies
  across an end of the text, since each backslash in it has a byte
  of the text behind it.
-/
theorem ofSource_resolve
    (line : Array UInt8)
    (m : Match)
    (source : Bytes) :
    ofSource (resolve line m source) =
      (ofSource source).flatMap (unitsFor line m) := by
  fun_induction ofSource source with
  | case1 b rest ih =>
      rw [resolve, List.flatMap_cons, unitsFor]
      split
      · next hDigit =>
          rw [ofSource_escape_append, ih,
            reference?_of_isGroupDigit hDigit]
      · next hOther =>
          rw [ofSource_escaped, ih,
            reference?_of_not_isGroupDigit hOther]
          rfl
  | case2 b rest hPlain ih =>
      cases rest with
      | nil =>
          rw [resolve, resolve, ofSource_single]
          · rfl
          · exact hPlain
      | cons next rest =>
          have hByte : b ≠ Ascii.backslash := fun hSame =>
            hPlain next rest hSame rfl
          rw [resolve, ofSource_cons_of_ne hByte, ih]
          · rfl
          · exact hPlain
  | case3 => rfl

/- A resolved source is filled in. -/
theorem filledIn_resolve
    (line : Array UInt8)
    (m : Match)
    (source : Bytes) :
    FilledIn line m source (resolve line m source) where
  eq_flatMap := resolve_eq_flatMap line m source
  reference?_eq_none := by
    intro unit hUnit
    rw [ofSource_resolve] at hUnit
    rcases List.mem_flatMap.mp hUnit with ⟨old, _, hFor⟩
    unfold unitsFor at hFor
    split at hFor
    · next hNone =>
        rw [List.mem_singleton.mp hFor]
        exact hNone
    · exact reference?_of_mem_literal _ hFor

end BackReference

------------------------------------------------------------
-- Frames
------------------------------------------------------------

namespace LineStep

/- The state that a line goes on with after a step, if it does. -/
def next? : LineStep → Option LineState
| .next state => some state
| .done _ => none

theorem next?_eq_some_iff
    {taken : LineStep}
    {state : LineState} :
    taken.next? = some state ↔ taken = .next state := by
  cases taken with
  | next other => simp [next?]
  | done last => simp [next?]

end LineStep

namespace LineState

variable {engine : Engine}
variable {grammar : Grammar}
variable {line : Array UInt8}
variable {state next : LineState}

/- Closing a region opens none. -/
theorem length_closeRegion_le
    (state : LineState) :
    state.closeRegion.stack.frames.length ≤
      state.stack.frames.length := by
  unfold closeRegion
  cases hBelow : state.below with
  | nil => exact Nat.le_refl _
  | cons frame frames => simp [stack, hBelow]

/- A step after which more regions are open has opened one. -/
theorem exists_endingFor_of_opened
    (hStep : state.step engine grammar line = .next next)
    (hOpened :
      state.stack.frames.length < next.stack.frames.length) :
    ∃ m opening captures endSource ending endCaptures endLast,
      state.best? engine grammar line =
          some ⟨m, .rule next.top.ruleId⟩ ∧
        (grammar.rule next.top.ruleId).body =
            .region opening captures endSource ending endCaptures
              endLast ∧
          (endingFor engine line m endSource ending).2 =
            next.top.endSource := by
  cases moves_of_step hStep with
  | close hBest =>
      have hLess := Nat.lt_of_lt_of_le hOpened (length_closeRegion_le _)
      exact absurd hLess (Nat.lt_irrefl _)
  | single hBest hBody hWide => exact absurd hOpened (Nat.lt_irrefl _)
  | unending hBest hBody hRejected hWide =>
      exact absurd hOpened (Nat.lt_irrefl _)
  | enter hBest hBody hEnding hNew =>
      exact
        ⟨_, _, _, _, _, _, _, hBest, hBody, congrArg Prod.snd hEnding⟩

end LineState

namespace Grammar

open SourceUnit

/-
  The end of a region of a grammar that is built is compiled with
  it, unless its source refers to the begin.
-/
theorem ending_of_ofJson
    {value : Json}
    {grammar : Grammar}
    {remarks : List Diagnostic}
    {id : RuleId}
    {opening : Option Pattern}
    {captures endCaptures : CaptureNames}
    {endSource : Bytes}
    {ending : Ending}
    {endLast : Bool}
    {engine : BoundedEngine}
    (hBuilt : ofJson engine value = (.ok (some grammar), remarks))
    (hBody :
      (grammar.rule id).body =
        .region opening captures endSource ending endCaptures endLast) :
    ending =
      if BackReference.occurs endSource then .referring
      else .fixed (engine.compile? endSource) := by
  rcases exists_ofDeclaration_eq hBuilt with ⟨d, _, hMade⟩
  rcases exists_laidOut hMade with ⟨sites, rules, hLaid, rfl⟩
  exact ending_of_laidOut hLaid hBody

/-
  What is kept of the source of an end is the resolved source,
  also where the source refers to nothing and is taken as it is.
-/
theorem endSource_eq_resolve
    {engine : Engine}
    {line : Array UInt8}
    {m : Match}
    {endSource : Bytes}
    {ending : Ending}
    {pattern : Option Pattern}
    (hEnding :
      ending =
        if BackReference.occurs endSource then .referring
        else .fixed pattern) :
    (LineState.endingFor engine line m endSource ending).2 =
      BackReference.resolve line m endSource := by
  cases hOccurs : BackReference.occurs endSource with
  | true =>
      rw [hEnding, hOccurs]
      rfl
  | false =>
      rw [hEnding, hOccurs,
        BackReference.resolve_of_not_occurs hOccurs]
      rfl

/- An end refers to the begin if a unit of its source does. -/
theorem ending_eq_referring_iff
    {endSource : Bytes}
    {ending : Ending}
    {pattern : Option Pattern}
    (hEnding :
      ending =
        if BackReference.occurs endSource then .referring
        else .fixed pattern) :
    ending = .referring ↔
      ∃ unit ∈ ofSource endSource, unit.reference? ≠ none := by
  rw [← BackReference.occurs_iff, hEnding]
  cases BackReference.occurs endSource with
  | true => simp
  | false => simp

/-
  Every source is what its units are.  It refers to a group if one
  of its units does.  Resolving it for a match fills it in, and
  leaves it as it is if it refers to nothing, whatever the match
  is.

  In a grammar that is built, the ends that refer to their begin
  are those with such a source.  A step that opens a region keeps
  the source of its end filled in for the match that was found.
-/
theorem endSource_of_step :
    (∀ source : Bytes,
        (ofSource source).flatMap bytes = source ∧
          (BackReference.occurs source = true ↔
            ∃ unit ∈ ofSource source, unit.reference? ≠ none) ∧
          ∀ (line : Array UInt8) (m : Match),
            BackReference.FilledIn line m source
                (BackReference.resolve line m source) ∧
              (BackReference.occurs source = false →
                BackReference.resolve line m source = source)) ∧
      ∀ {compiler : BoundedEngine} {value : Json}
        {grammar : Grammar} {remarks : List Diagnostic},
        ofJson compiler value = (.ok (some grammar), remarks) →
          (∀ {id : RuleId} {opening : Option Pattern}
            {captures endCaptures : CaptureNames}
            {endSource : Bytes} {ending : Ending} {endLast : Bool},
            (grammar.rule id).body =
                .region opening captures endSource ending endCaptures
                  endLast →
              (ending = .referring ↔
                ∃ unit ∈ ofSource endSource,
                  unit.reference? ≠ none)) ∧
            ∀ {engine : Engine} {line : Array UInt8}
              {state next : LineState},
              state.step engine grammar line = .next next →
                state.stack.frames.length <
                    next.stack.frames.length →
                  ∃ m,
                    state.best? engine grammar line =
                        some ⟨m, .rule next.top.ruleId⟩ ∧
                      BackReference.FilledIn line m
                        (grammar.rule next.top.ruleId).endSource
                        next.top.endSource := by
  refine ⟨?_, ?_⟩
  · intro source
    refine
      ⟨flatMap_bytes_ofSource source, BackReference.occurs_iff source,
        ?_⟩
    intro line m
    exact
      ⟨BackReference.filledIn_resolve line m source,
        fun hOccurs => BackReference.resolve_of_not_occurs hOccurs _ _⟩
  · intro compiler value grammar remarks hBuilt
    refine ⟨?_, ?_⟩
    · intro id opening captures endCaptures endSource ending endLast
        hBody
      exact ending_eq_referring_iff (ending_of_ofJson hBuilt hBody)
    · intro engine line state next hStep hOpened
      rcases LineState.exists_endingFor_of_opened hStep hOpened with
        ⟨m, opening, captures, endSource, ending, endCaptures, endLast,
          hBest, hBody, hKept⟩
      have hSource :
          (grammar.rule next.top.ruleId).endSource = endSource := by
        simp [Rule.endSource, hBody]
      refine ⟨m, hBest, ?_⟩
      rw [hSource, ← hKept,
        endSource_eq_resolve (ending_of_ofJson hBuilt hBody)]
      exact BackReference.filledIn_resolve line m endSource

/-
  The begin of a region matches a backslash and a digit, and its
  third group nothing.  The end refers to all three groups, and an
  escaped backslash comes before another digit.
-/
theorem endSource_of_step_backslash :
    let doc : Json :=
      .record
        [("scopeName", .ofString "source.quoted"),
          ("patterns",
            .array
              [.record
                [("begin", .ofString "q(.)(.)(z)?"),
                  ("end", .ofString "\\1\\2\\\\1\\3$")]])]
    let line := (utf8 "q\\1").toArray
    ∃ grammar next,
      ofJson .standard doc = (.ok (some grammar), []) ∧
        (LineState.start grammar RuleStack.empty).step Engine.standard
              grammar line =
            .next next ∧
          next.top.endSource = utf8 "\\\\1\\\\1$" ∧
            ∃ m,
              BackReference.FilledIn line m
                (grammar.rule next.top.ruleId).endSource
                next.top.endSource := by
  intro doc line
  have hComputed :
      (ofJsonWithin? .standard 20 doc).map (fun g =>
          ((LineState.start g RuleStack.empty).step Engine.standard g
              line).next?.map
            (fun next =>
              (next.stack.frames.length, next.top.endSource))) =
        some (some (2, utf8 "\\\\1\\\\1$")) := by
    decide +kernel
  rcases Option.map_eq_some_iff.mp hComputed with
    ⟨grammar, hWithin, hFound⟩
  rcases Option.map_eq_some_iff.mp hFound with ⟨next, hNext, hPair⟩
  rcases Prod.mk.inj hPair with ⟨hLength, hSource⟩
  have hBuilt := ofJson_of_ofJsonWithin? hWithin
  have hStep := LineStep.next?_eq_some_iff.mp hNext
  have hOpened :
      (LineState.start grammar RuleStack.empty).stack.frames.length <
        next.stack.frames.length := by
    rw [hLength]
    exact Nat.one_lt_two
  rcases (endSource_of_step.2 hBuilt).2 hStep hOpened with
    ⟨m, _, hFilled⟩
  exact ⟨grammar, next, hBuilt, hStep, hSource, m, hFilled⟩

end Grammar

end Marginalia

import Marginalia.Proofs.Token.Unclosed

/-
  This file proves that stacks which agree cannot be told apart by
  cutting lines.

  Frames are compared by their rule, the source of their end and
  the scopes inside them.  A frame has two more parts: its end, and
  the scopes of its two ends.  In the stacks that lines leave
  behind, the end is compiled from the source that is compared, or
  once and for all with the rule, and the scopes of the ends are
  those inside the frame below, which are compared too.  The
  outermost frame is the same in all stacks.  So such stacks agree
  only if they are the same.

  Key definitions include:
    * `Frame.compared`
    * `Rule.endingOf`
    * `Frame.FollowsFrom`, `RuleStack.Determined`
  The main statements are:
    * `RuleStack.beq_iff`
    * `LineState.determined_of_moves`
    * `RuleStack.eq_of_beq`
    * `tokenizeLine?_congruent`
-/

namespace Marginalia

------------------------------------------------------------
-- What Is Compared
------------------------------------------------------------

/- The parts of a frame that are compared. -/
def Frame.compared (frame : Frame) : RuleId × Bytes × List Scope :=
  (frame.ruleId, frame.endSource, frame.contentScopes)

/- Two frames agree if these parts are the same. -/
theorem Frame.agrees_iff
    {a b : Frame} :
    a.agrees b = true ↔ a.compared = b.compared := by
  simp [agrees, compared, and_assoc]

namespace RuleStack

/- Frames agree one by one if these parts of them are the same. -/
theorem framesAgree_iff
    (as : List Frame) :
    ∀ {bs : List Frame},
      framesAgree as bs = true ↔
        as.map Frame.compared = bs.map Frame.compared := by
  induction as with
  | nil =>
      intro bs
      cases bs <;> simp [framesAgree]
  | cons a as ih =>
      intro bs
      cases bs with
      | nil => simp [framesAgree]
      | cons b bs => simp [framesAgree, Frame.agrees_iff, ih]

/- Two stacks agree if these parts of all their frames are the same. -/
theorem beq_iff
    {s t : RuleStack} :
    (s == t) = true ↔
      s.frames.map Frame.compared = t.frames.map Frame.compared :=
  framesAgree_iff s.frames

/- So to agree is an equivalence of stacks. -/
theorem equivalence_beq :
    Equivalence (fun s t : RuleStack => (s == t) = true) where
  refl _ := beq_iff.mpr rfl
  symm hAgree := beq_iff.mpr (beq_iff.mp hAgree).symm
  trans hFirst hSecond :=
    beq_iff.mpr ((beq_iff.mp hFirst).trans (beq_iff.mp hSecond))

end RuleStack

------------------------------------------------------------
-- What Follows from It
------------------------------------------------------------

/-
  The end of a region of a rule, if this is the source of the end:
  it is compiled with the rule, unless it refers to the begin.
-/
def Rule.endingOf
    (engine : Engine)
    (rule : Rule)
    (source : Bytes) : Option Pattern :=
  match rule.body with
  | .region _ _ _ (.fixed pattern) _ _ => pattern
  | .region _ _ _ .referring _ _ => engine.compile? source
  | _ => none

/-
  The parts of a frame that are not compared follow from the parts
  that are, and from what is inside the frame below it.
-/
structure Frame.FollowsFrom
    (engine : Engine)
    (grammar : Grammar)
    (frame outer : Frame) : Prop where
  ending_eq :
    frame.ending =
      (grammar.rule frame.ruleId).endingOf engine frame.endSource
  nameScopes_eq :
    frame.nameScopes =
      LineState.withScope outer.contentScopes
        (grammar.rule frame.ruleId).name
  depth_eq : frame.depth = outer.depth + 1

/- Frames that agree above the same frame are the same. -/
theorem Frame.eq_of_followsFrom
    {engine : Engine}
    {grammar : Grammar}
    {a b outer : Frame}
    (hA : a.FollowsFrom engine grammar outer)
    (hB : b.FollowsFrom engine grammar outer)
    (hAgree : a.compared = b.compared) :
    a = b := by
  have hNames := hA.nameScopes_eq
  have hEnding := hA.ending_eq
  have hDepth := hA.depth_eq
  rcases a with
    ⟨ruleId, ending, endSource, nameScopes, contentScopes, depth⟩
  simp only [compared, Prod.mk.injEq] at hAgree
  rcases hAgree with ⟨hRule, hSource, hContent⟩
  simp only [hRule, hSource] at hNames hEnding hDepth
  rw [hNames, hEnding, hDepth, ← hB.nameScopes_eq, ← hB.ending_eq,
    ← hB.depth_eq, hRule, hSource, hContent]

namespace RuleStack

/-
  All frames follow from what is compared, and the outermost one
  is that of the document.
-/
structure Determined
    (engine : Engine)
    (grammar : Grammar)
    (stack : RuleStack) : Prop where
  follows : stack.frames.IsChain (Frame.FollowsFrom engine grammar)
  root : ∀ frame ∈ stack.frames.getLast?, frame = Frame.root grammar

variable {engine : Engine}
variable {grammar : Grammar}

/- What is below a frame is determined too. -/
theorem determined_below
    {top : Frame}
    {below : List Frame}
    (hStack : Determined engine grammar ⟨top :: below⟩) :
    Determined engine grammar ⟨below⟩ where
  follows := hStack.follows.tail
  root := by
    intro frame hFrame
    apply hStack.root
    cases below with
    | nil => cases hFrame
    | cons outer rest => rwa [List.getLast?_cons_cons]

/-
  Determined stacks that agree are the same.  The induction is on
  the frames of the first one, from the outermost one inwards.
-/
theorem eq_of_compared_eq
    (as : List Frame) :
    ∀ {bs : List Frame},
      Determined engine grammar ⟨as⟩ →
        Determined engine grammar ⟨bs⟩ →
          as.map Frame.compared = bs.map Frame.compared →
            as = bs := by
  induction as with
  | nil =>
      intro bs _ _ hAgree
      exact (List.map_eq_nil_iff.mp hAgree.symm).symm
  | cons a as ih =>
      intro bs hA hB hAgree
      cases bs with
      | nil => cases hAgree
      | cons b bs =>
          rcases List.cons.inj hAgree with ⟨hTop, hBelow⟩
          have hSame : as = bs :=
            ih (determined_below hA) (determined_below hB) hBelow
          subst hSame
          have hEqual : a = b := by
            cases as with
            | nil => rw [hA.root a rfl, hB.root b rfl]
            | cons outer rest =>
                exact
                  Frame.eq_of_followsFrom
                    (List.isChain_cons_cons.mp hA.follows).1
                    (List.isChain_cons_cons.mp hB.follows).1 hTop
          rw [hEqual]

end RuleStack

------------------------------------------------------------
-- Stacks That Lines Leave Behind
------------------------------------------------------------

namespace LineState

variable {engine : Engine}
variable {grammar : Grammar}
variable {line : Array UInt8}
variable {state next : LineState}

/- The end that a match opens follows from the source that is kept. -/
theorem endingOf_of_endingFor
    {m : Match}
    {id : RuleId}
    {opening pattern : Option Pattern}
    {captures endCaptures : CaptureNames}
    {endSource source : Bytes}
    {ending : Ending}
    {endLast : Bool}
    (hBody :
      (grammar.rule id).body =
        .region opening captures endSource ending endCaptures endLast)
    (hEnding :
      endingFor engine line m endSource ending = (pattern, source)) :
    pattern = (grammar.rule id).endingOf engine source := by
  cases ending with
  | fixed closing =>
      cases hEnding
      simp [Rule.endingOf, hBody]
  | referring =>
      cases hEnding
      simp [Rule.endingOf, hBody]

/- Every move leaves a determined stack behind. -/
theorem determined_of_moves
    (hStack : state.stack.Determined engine grammar)
    (hMoves : Moves engine grammar line state next) :
    next.stack.Determined engine grammar := by
  cases hMoves with
  | @close m hBest =>
      cases hBelow : state.below with
      | nil =>
          simpa [closeRegion, colour, fill, moveTo, stack, hBelow]
            using hStack
      | cons frame frames =>
          have hLower : RuleStack.Determined engine grammar ⟨state.below⟩ :=
            RuleStack.determined_below hStack
          simpa [closeRegion, colour, fill, moveTo, stack, hBelow]
            using hLower
  | single hBest hBody hWide => exact hStack
  | unending hBest hBody hRejected hWide => exact hStack
  | enter hBest hBody hEnding hNew =>
      refine ⟨?_, ?_⟩
      · exact
          List.IsChain.cons_cons
            ⟨endingOf_of_endingFor hBody hEnding, rfl, rfl⟩ hStack.follows
      · intro outer hOuter
        apply hStack.root
        simpa [openRegion, colour, fill, stack,
          List.getLast?_cons_cons] using hOuter

end LineState

namespace RuleStack

variable {engine : Engine}
variable {grammar : Grammar}

/- The stacks that lines leave behind are determined. -/
theorem determined_of_reached
    {stack : RuleStack}
    (hReached : stack.Reached engine grammar) :
    stack.Determined engine grammar := by
  induction hReached with
  | empty =>
      refine ⟨List.IsChain.nil, ?_⟩
      intro frame hFrame
      cases hFrame
  | @line prior line maxLength result _ hLine ih =>
      have hStart :
          (LineState.start grammar prior).stack.Determined engine
            grammar := by
        rcases prior with ⟨frames⟩
        cases frames with
        | nil =>
            refine ⟨List.IsChain.singleton _, ?_⟩
            intro frame hFrame
            exact (Option.some.inj hFrame).symm
        | cons top below => exact ih
      rcases
          exists_last_of_tokenizeLine?
            (P := fun state => state.stack.Determined engine grammar)
            hStart
            (fun hStack hMoves =>
              LineState.determined_of_moves hStack hMoves)
            (fun hStack hStops => by
              rw [LineState.stack_of_stops hStops]
              exact hStack)
            (fun hStack => hStack) hLine with
        ⟨last, hStack, rfl⟩
      exact hStack

/- Two such stacks agree only if they are the same. -/
theorem eq_of_beq
    {s t : RuleStack}
    (hS : s.Reached engine grammar)
    (hT : t.Reached engine grammar)
    (hAgree : (s == t) = true) :
    s = t := by
  rcases s with ⟨as⟩
  rcases t with ⟨bs⟩
  have hFrames : as = bs :=
    eq_of_compared_eq as (determined_of_reached hS)
      (determined_of_reached hT) (beq_iff.mp hAgree)
  rw [hFrames]

end RuleStack

------------------------------------------------------------
-- Lines
------------------------------------------------------------

/-
  To agree is an equivalence of all stacks.  From two stacks that
  agree, which lines of whatever texts left behind, every line
  comes to an end, and it is cut into the same tokens and leaves
  stacks behind that agree again.  Nothing is asked of the grammar,
  and of the engine only that its matches stay inside the line.
-/
theorem tokenizeLine?_congruent
    {engine : Engine}
    (hEngine : engine.StaysInside)
    (grammar : Grammar) :
    Equivalence (fun s t : RuleStack => (s == t) = true) ∧
      ∀ {s t : RuleStack},
        s.Reached engine grammar →
          t.Reached engine grammar →
            (s == t) = true →
              ∀ (line : Bytes) (maxLength : Nat),
                ∃ first second,
                  tokenizeLine? engine grammar line s maxLength =
                      some first ∧
                    tokenizeLine? engine grammar line t maxLength =
                        some second ∧
                      first.tokens = second.tokens ∧
                        (first.stack == second.stack) = true := by
  refine ⟨RuleStack.equivalence_beq, ?_⟩
  intro s t hS hT hAgree line maxLength
  rcases
      exists_tokenizeLine?_eq_some hEngine grammar
        (RuleStack.rooted_of_reached hEngine hS) line maxLength with
    ⟨result, hLine, _⟩
  have hSame : s = t := RuleStack.eq_of_beq hS hT hAgree
  refine ⟨result, result, hLine, ?_, rfl, ?_⟩
  · rw [← hSame]
    exact hLine
  · exact RuleStack.equivalence_beq.refl result.stack

/- A grammar of texts that end with the word they begin with. -/
def Grammar.heredocs : Grammar :=
  { engine := .standard
    scopeName := utf8 "source.shell"
    rules :=
      #[{ name := []
          contentName := []
          body := .container
          patterns := [1]
          candidates := [1] },
        { name := utf8 "string.unquoted"
          contentName := utf8 "meta.embedded"
          body :=
            .region (Pattern.compile? (utf8 "<<(\\w+)")) []
              (utf8 "^\\1$") .referring [] false
          patterns := [1]
          candidates := [1] }] }

/-
  The same text is opened by different lines, the second time with
  another text around it on the line before.
-/
theorem tokenizeLine?_congruent_heredocs :
    ∃ first before second,
      tokenizeLine? Engine.standard Grammar.heredocs
            (utf8 "cat <<A b <<B") RuleStack.empty 0 =
          some first ∧
        tokenizeLine? Engine.standard Grammar.heredocs (utf8 "<<A")
              RuleStack.empty 0 =
            some before ∧
          tokenizeLine? Engine.standard Grammar.heredocs
                (utf8 "x <<B y") before.stack 9 =
              some second ∧
            first.tokens ≠ second.tokens ∧
              (first.stack == second.stack) = true ∧
                ∀ (line : Bytes) (maxLength : Nat),
                  ∃ a b,
                    tokenizeLine? Engine.standard Grammar.heredocs
                          line first.stack maxLength =
                        some a ∧
                      tokenizeLine? Engine.standard Grammar.heredocs
                            line second.stack maxLength =
                          some b ∧
                        a.tokens = b.tokens ∧
                          (a.stack == b.stack) = true := by
  have hEvaluated : ∃ first before second,
      tokenizeLineWithin? 9 Grammar.heredocs (utf8 "cat <<A b <<B")
            RuleStack.empty 0 =
          some first ∧
        tokenizeLineWithin? 9 Grammar.heredocs (utf8 "<<A")
              RuleStack.empty 0 =
            some before ∧
          tokenizeLineWithin? 9 Grammar.heredocs (utf8 "x <<B y")
                before.stack 9 =
              some second ∧
            first.tokens.length = 4 ∧
              second.tokens.length = 3 ∧
                (first.stack == second.stack) = true :=
    ⟨_, _, _, rfl, rfl, rfl, rfl, rfl, rfl⟩
  rcases hEvaluated with
    ⟨first, before, second, hFirst, hBefore, hSecond, hFour, hThree,
      hAgree⟩
  have hFirst := tokenizeLine?_of_within? hFirst
  have hBefore := tokenizeLine?_of_within? hBefore
  have hSecond := tokenizeLine?_of_within? hSecond
  have hTokens : first.tokens ≠ second.tokens := by
    intro hSame
    rw [hSame, hThree] at hFour
    cases hFour
  exact
    ⟨first, before, second, hFirst, hBefore, hSecond, hTokens, hAgree,
      (tokenizeLine?_congruent Engine.standard_staysInside
        Grammar.heredocs).2 (.line .empty hFirst)
        (.line (.line .empty hBefore) hSecond) hAgree⟩

end Marginalia

import Marginalia.Proofs.Token.Evaluation
import Marginalia.Proofs.Token.Partition
import Marginalia.Proofs.Token.Stacks

/-
  This file proves that a region whose end is never found goes on
  to the end of the document, whatever regions are opened and
  closed inside it.

  The frame of the region keeps its place in the stack: what is
  above it may change, but only its own end could take it away.
  The frames above it continue its scopes, so all tokens have
  them.

  Key definitions include:
    * `Frame.Continues`, `RuleStack.Nested`
    * `Frame.Unended`
    * `LineState.Inside`
  The main statements are:
    * `RuleStack.nested_of_reached`
    * `LineState.inside_of_moves`
    * `tokenizeLines?_unclosed`
    * `TokenizedDocument.lineTokens_unclosed`
-/

namespace Marginalia

------------------------------------------------------------
-- Nested Frames
------------------------------------------------------------

/-
  The scopes of a frame continue those of another one around it,
  and what is between its ends has the scopes of the ends.
-/
structure Frame.Continues (frame outer : Frame) : Prop where
  name : outer.contentScopes <+: frame.nameScopes
  content : frame.nameScopes <+: frame.contentScopes

namespace RuleStack

/- Each frame continues the one below it. -/
def Nested (stack : RuleStack) : Prop :=
  stack.frames.IsChain Frame.Continues

/-
  The ends of the innermost region have the scopes of every frame
  below it.  The induction is on the frames between them.
-/
theorem isPrefix_nameScopes
    {frame : Frame}
    {below : List Frame}
    (frames : List Frame) :
    ∀ {top : Frame},
      Nested ⟨top :: frames⟩ →
        frame :: below <:+ frames →
          frame.contentScopes <+: top.nameScopes := by
  induction frames with
  | nil =>
      intro top _ hKept
      cases List.suffix_nil.mp hKept
  | cons next rest ih =>
      intro top hNested hKept
      rcases List.isChain_cons_cons.mp hNested with ⟨hNext, hRest⟩
      rcases List.suffix_cons_iff.mp hKept with hSame | hLower
      · cases hSame
        exact hNext.name
      · have hOuter := ih hRest hLower
        cases rest with
        | nil => cases List.suffix_nil.mp hLower
        | cons other rest =>
            have hContent := (List.isChain_cons_cons.mp hRest).1.content
            exact (hOuter.trans hContent).trans hNext.name

/- What is inside the innermost region has the scopes of every frame. -/
theorem isPrefix_contentScopes
    {frame top : Frame}
    {below frames : List Frame}
    (hNested : Nested ⟨top :: frames⟩)
    (hKept : frame :: below <:+ top :: frames) :
    frame.contentScopes <+: top.contentScopes := by
  rcases List.suffix_cons_iff.mp hKept with hSame | hLower
  · cases hSame
    exact List.prefix_rfl
  · have hName := isPrefix_nameScopes frames hNested hLower
    cases frames with
    | nil => cases List.suffix_nil.mp hLower
    | cons next rest =>
        exact hName.trans (List.isChain_cons_cons.mp hNested).1.content

end RuleStack

namespace LineState

variable {engine : Engine}
variable {grammar : Grammar}
variable {line : Array UInt8}
variable {state next last : LineState}

/- A name is added behind the scopes. -/
theorem isPrefix_withScope
    (scopes : List Scope)
    (name : Scope) :
    scopes <+: withScope scopes name := by
  unfold withScope
  split
  · exact List.prefix_rfl
  · exact List.prefix_append scopes [name]

/- Every move leaves a nested stack behind. -/
theorem nested_of_moves
    (hNested : state.stack.Nested)
    (hMoves : Moves engine grammar line state next) :
    next.stack.Nested := by
  cases hMoves with
  | @close m hBest =>
      cases hBelow : state.below with
      | nil =>
          simpa [closeRegion, colour, fill, moveTo, stack, hBelow]
            using hNested
      | cons frame frames =>
          have hTail : RuleStack.Nested ⟨state.below⟩ :=
            List.IsChain.tail hNested
          simpa [closeRegion, colour, fill, moveTo, stack, hBelow]
            using hTail
  | single hBest hBody hWide => exact hNested
  | unending hBest hBody hRejected hWide => exact hNested
  | enter hBest hBody hEnding hNew =>
      exact
        List.IsChain.cons_cons
          ⟨isPrefix_withScope _ _, isPrefix_withScope _ _⟩ hNested

end LineState

------------------------------------------------------------
-- From Moves to Lines
------------------------------------------------------------

/-
  What holds at the start of a line and is kept by every move, by
  the ways to stop and by colouring all of a line that is too
  long, holds of what the line has come to.
-/
theorem exists_last_of_tokenizeLine?
    {engine : Engine}
    {grammar : Grammar}
    {prior : RuleStack}
    {line : Bytes}
    {maxLength : Nat}
    {result : LineTokens}
    {P : LineState → Prop}
    (hStart : P (LineState.start grammar prior))
    (hMoves :
      ∀ {state next : LineState},
        P state →
          LineState.Moves engine grammar line.toArray state next →
            P next)
    (hStops :
      ∀ {state last : LineState},
        P state →
          LineState.Stops engine grammar line.toArray state last →
            P last)
    (hFill :
      ∀ {state : LineState},
        P state → P (state.fill 0 line.length))
    (hLine :
      tokenizeLine? engine grammar line prior maxLength =
        some result) :
    ∃ last : LineState, P last ∧ last.result = result := by
  unfold tokenizeLine? at hLine
  dsimp only at hLine
  split at hLine
  · exact ⟨_, hFill hStart, Option.some.inj hLine⟩
  · rcases Option.map_eq_some_iff.mp hLine with ⟨last, hRun, hResult⟩
    rcases LineState.exists_reaches_of_run? hRun with
      ⟨before, hReaches, hStep⟩
    have hBefore : P before := by
      clear hStep hRun
      induction hReaches with
      | refl => exact hStart
      | next _ hStep ih => exact hMoves ih (LineState.moves_of_step hStep)
    exact
      ⟨last, hStops hBefore (LineState.stops_of_step hStep), hResult⟩

namespace RuleStack

variable {engine : Engine}
variable {grammar : Grammar}

/- The stacks that lines leave behind are nested. -/
theorem nested_of_reached
    {stack : RuleStack}
    (hReached : stack.Reached engine grammar) :
    stack.Nested := by
  induction hReached with
  | empty => exact List.IsChain.nil
  | @line prior line maxLength result _ hLine ih =>
      have hStart : (LineState.start grammar prior).stack.Nested := by
        rcases prior with ⟨frames⟩
        cases frames with
        | nil => exact List.IsChain.singleton _
        | cons top below => exact ih
      rcases
          exists_last_of_tokenizeLine?
            (P := fun state => state.stack.Nested) hStart
            (fun hNested hMoves =>
              LineState.nested_of_moves hNested hMoves)
            (fun hNested hStops => by
              rw [LineState.stack_of_stops hStops]
              exact hNested)
            (fun hNested => hNested) hLine with
        ⟨last, hNested, rfl⟩
      exact hNested

end RuleStack

------------------------------------------------------------
-- A Region That Stays Open
------------------------------------------------------------

/- The end of a region is found from no column of a line. -/
def Frame.Unended
    (engine : Engine)
    (line : Array UInt8)
    (frame : Frame) : Prop :=
  ∀ pattern ∈ frame.ending,
    ∀ column ≤ line.size, engine.search? pattern line column = none

namespace LineState

variable {engine : Engine}
variable {grammar : Grammar}
variable {line : Array UInt8}
variable {state next last : LineState}
variable {frame : Frame}
variable {below : List Frame}

/-
  A frame is at its place in the stack, and all tokens of the line
  so far have its scopes.
-/
structure Inside
    (line : Array UInt8)
    (frame : Frame)
    (below : List Frame)
    (state : LineState) : Prop where
  column_le : state.column ≤ line.size
  nested : state.stack.Nested
  kept : frame :: below <:+ state.top :: state.below
  tokens : ∀ token ∈ state.tokens, frame.contentScopes <+: token.scopes

/- Colouring the line adds tokens with these scopes. -/
theorem tokens_fill
    (hInside : state.Inside line frame below)
    (start stop : Nat) :
    ∀ token ∈ (state.fill start stop).tokens,
      frame.contentScopes <+: token.scopes :=
  Tokens.forall_push hInside.tokens
    (RuleStack.isPrefix_contentScopes hInside.nested hInside.kept)
    start stop

/- Colouring the line leaves the frame at its place. -/
theorem inside_fill
    (hInside : state.Inside line frame below)
    (start stop : Nat) :
    (state.fill start stop).Inside line frame below where
  column_le := hInside.column_le
  nested := hInside.nested
  kept := hInside.kept
  tokens := tokens_fill hInside start stop

/- Colouring a match adds tokens that have the scopes of the match. -/
theorem tokens_colour
    {scopes : List Scope}
    (hInside : state.Inside line frame below)
    (hScopes : frame.contentScopes <+: scopes)
    (m : Match)
    (captures : CaptureNames) :
    ∀ token ∈ (state.colour m scopes captures).tokens,
      frame.contentScopes <+: token.scopes :=
  Captures.forall_emit m hInside.tokens
    (fun names => hScopes.trans (List.prefix_append scopes names))
    captures

/- If the end of the frame is not found, another one is closed. -/
theorem below_of_unended
    {m : Match}
    (hUnended : frame.Unended engine line)
    (hInside : state.Inside line frame below)
    (hBest : state.best? engine grammar line = some ⟨m, .ending⟩) :
    frame :: below <:+ state.below := by
  rcases exists_ending_of_best? hBest with
    ⟨pattern, hEnding, hFound⟩
  rcases List.suffix_cons_iff.mp hInside.kept with hSame | hLower
  · cases hSame
    have hNone :=
      hUnended pattern hEnding state.column hInside.column_le
    rw [hFound] at hNone
    cases hNone
  · exact hLower

/-
  Every move leaves the frame at its place, unless its end is
  found.
-/
theorem inside_of_moves
    (hEngine : engine.StaysInside)
    (hUnended : frame.Unended engine line)
    (hInside : state.Inside line frame below)
    (hMoves : Moves engine grammar line state next) :
    next.Inside line frame below := by
  have hNested := nested_of_moves hInside.nested hMoves
  have hContent :
      ∀ name, frame.contentScopes <+:
        withScope state.top.contentScopes name :=
    fun name =>
      (RuleStack.isPrefix_contentScopes hInside.nested
        hInside.kept).trans (isPrefix_withScope _ name)
  cases hMoves with
  | @close m hBest =>
      have hLower := below_of_unended hUnended hInside hBest
      have hColoured :=
        tokens_colour (inside_fill hInside state.column m.start)
          (RuleStack.isPrefix_nameScopes _ hInside.nested hLower) m
          (grammar.rule state.top.ruleId).endCaptures
      cases hBelow : state.below with
      | nil =>
          rw [hBelow] at hLower
          cases List.suffix_nil.mp hLower
      | cons outer frames =>
          refine
            ⟨(bounds_of_best? hEngine hBest).2.2, hNested, ?_, ?_⟩
          · simpa [closeRegion, colour, fill, moveTo, hBelow]
              using hLower
          · simpa [closeRegion, colour, fill, moveTo, hBelow]
              using hColoured
  | @single m id _ captures hBest hBody hWide =>
      exact
        ⟨(bounds_of_best? hEngine hBest).2.2, hNested, hInside.kept,
          tokens_colour (inside_fill hInside state.column m.start)
            (hContent _) m captures⟩
  | @unending m id _ captures _ _ _ _ hBest hBody hRejected hWide =>
      exact
        ⟨(bounds_of_best? hEngine hBest).2.2, hNested, hInside.kept,
          tokens_colour (inside_fill hInside state.column m.start)
            (hContent _) m captures⟩
  | @enter m id _ captures _ _ _ _ _ _ hBest hBody hEnding hNew =>
      exact
        ⟨(bounds_of_best? hEngine hBest).2.2, hNested,
          hInside.kept.trans (List.suffix_cons _ _),
          tokens_colour (inside_fill hInside state.column m.start)
            (hContent _) m captures⟩

/- The last step of a line leaves the frame at its place. -/
theorem inside_of_stops
    (hInside : state.Inside line frame below)
    (hStops : Stops engine grammar line state last) :
    last.Inside line frame below := by
  cases hStops with
  | nothing hBest => exact inside_fill hInside _ _
  | idle hBest => exact inside_fill (inside_fill hInside _ _) _ _
  | unending hBest hEmpty =>
      rw [colour_of_empty hEmpty]
      exact inside_fill (inside_fill hInside _ _) _ _

/- A line starts inside every frame of the stack it is given. -/
theorem inside_start
    {prior : RuleStack}
    (grammar : Grammar)
    (hNested : prior.Nested)
    (hKept : frame :: below <:+ prior.frames) :
    (start grammar prior).Inside line frame below := by
  rcases prior with ⟨frames⟩
  cases frames with
  | nil => cases List.suffix_nil.mp hKept
  | cons top rest =>
      refine ⟨Nat.zero_le _, hNested, hKept, ?_⟩
      intro token hToken
      cases hToken

end LineState

------------------------------------------------------------
-- Lines
------------------------------------------------------------

/-
  What is left of a line inside a region: the region is still
  open, all tokens have its scopes, and if it is a comment they
  are all comments.
-/
structure LineTokens.Inside
    (frame : Frame)
    (below : List Frame)
    (result : LineTokens) : Prop where
  kept : frame :: below <:+ result.stack.frames
  scopes : ∀ token ∈ result.tokens, frame.contentScopes <+: token.scopes
  comment :
    ∀ scope ∈ frame.contentScopes,
      scope.isUnder Scope.comment = true →
        ∀ token ∈ result.tokens, token.commentScope?.isSome = true

/- A token that has all scopes of a comment is a comment. -/
theorem Token.commentScope?_isSome_of_isPrefix
    {token : Token}
    {scopes : List Scope}
    {scope : Scope}
    (hScopes : scopes <+: token.scopes)
    (hScope : scope ∈ scopes)
    (hComment : scope.isUnder Scope.comment = true) :
    token.commentScope?.isSome = true := by
  unfold commentScope?
  rw [List.find?_isSome]
  exact
    ⟨scope, List.mem_reverse.mpr (hScopes.subset hScope), hComment⟩

/- A line on which the end of a region is not found lies inside it. -/
theorem inside_of_tokenizeLine?
    {engine : Engine}
    {grammar : Grammar}
    {prior : RuleStack}
    {frame : Frame}
    {below : List Frame}
    {line : Bytes}
    {maxLength : Nat}
    {result : LineTokens}
    (hEngine : engine.StaysInside)
    (hNested : prior.Nested)
    (hKept : frame :: below <:+ prior.frames)
    (hUnended : frame.Unended engine line.toArray)
    (hLine :
      tokenizeLine? engine grammar line prior maxLength =
        some result) :
    result.Inside frame below := by
  rcases
      exists_last_of_tokenizeLine?
        (LineState.inside_start grammar hNested hKept)
        (LineState.inside_of_moves hEngine hUnended)
        LineState.inside_of_stops
        (fun hInside => LineState.inside_fill hInside _ _) hLine with
    ⟨last, hInside, rfl⟩
  have hScopes :
      ∀ token ∈ last.result.tokens,
        frame.contentScopes <+: token.scopes :=
    fun token hToken =>
      hInside.tokens token (List.mem_reverse.mp hToken)
  exact
    ⟨hInside.kept, hScopes,
      fun _ hScope hComment token hToken =>
        Token.commentScope?_isSome_of_isPrefix
          (hScopes token hToken) hScope hComment⟩

/-
  All lines on which the end of a region is not found lie inside
  it, however long they are.  The induction is on the lines.
-/
theorem inside_of_tokenizeLines?
    {engine : Engine}
    {grammar : Grammar}
    {frame : Frame}
    {below : List Frame}
    (hEngine : engine.StaysInside)
    (lines : List (Bytes × Nat)) :
    ∀ {prior : RuleStack} {results : List LineTokens},
      prior.Reached engine grammar →
        frame :: below <:+ prior.frames →
          (∀ line ∈ lines, frame.Unended engine line.1.toArray) →
            tokenizeLines? engine grammar prior lines = some results →
              List.Forall₂
                (fun line result =>
                  Tokens.Partition line.1.length result.tokens ∧
                    result.Inside frame below)
                lines results := by
  induction lines with
  | nil =>
      intro prior results _ _ _ hLines
      cases hLines
      exact List.Forall₂.nil
  | cons line lines ih =>
      intro prior results hPrior hKept hUnended hLines
      rcases line with ⟨text, maxLength⟩
      unfold tokenizeLines? at hLines
      split at hLines
      · cases hLines
      · next result hLine =>
          rcases Option.map_eq_some_iff.mp hLines with
            ⟨later, hLater, rfl⟩
          have hPartition :=
            partition_of_tokenizeLine? hEngine
              (RuleStack.rooted_of_reached hEngine hPrior) hLine
          have hInside :=
            inside_of_tokenizeLine? hEngine
              (RuleStack.nested_of_reached hPrior) hKept
              (hUnended _ List.mem_cons_self) hLine
          exact
            List.Forall₂.cons ⟨hPartition, hInside⟩
              (ih (.line hPrior hLine) hInside.kept
                (fun other hOther =>
                  hUnended other (List.mem_cons_of_mem _ hOther))
                hLater)

/-
  A region that is open goes on over all lines on which its end
  is found from no column, each with a limit of its own: every
  line comes to an end and is all covered by tokens, these have
  the scopes of the region in front of their own, and the region
  is still at its place in the stack afterwards.  If one of its
  scopes is that of a comment, all of the lines is comment.
  Nothing is asked of the grammar, and of the engine only that
  its matches stay inside the line.
-/
theorem tokenizeLines?_unclosed
    {engine : Engine}
    {grammar : Grammar}
    {prior : RuleStack}
    {frame : Frame}
    {below : List Frame}
    {lines : List (Bytes × Nat)}
    (hEngine : engine.StaysInside)
    (hPrior : prior.Reached engine grammar)
    (hKept : frame :: below <:+ prior.frames)
    (hUnended : ∀ line ∈ lines, frame.Unended engine line.1.toArray) :
    ∃ results,
      tokenizeLines? engine grammar prior lines = some results ∧
        List.Forall₂
          (fun line result =>
            Tokens.Partition line.1.length result.tokens ∧
              result.Inside frame below)
          lines results := by
  rcases
      exists_tokenizeLines?_partition hEngine lines
        (RuleStack.rooted_of_reached hEngine hPrior) with
    ⟨results, hLines, _⟩
  exact
    ⟨results, hLines,
      inside_of_tokenizeLines? hEngine lines hPrior hKept hUnended
        hLines⟩

/-
  A grammar of comments with braces in them, which may stand
  inside each other.
-/
def Grammar.bracedComments : Grammar :=
  { engine := .standard
    scopeName := utf8 "source.braces"
    rules :=
      #[{ name := []
          contentName := []
          body := .container
          patterns := [1]
          candidates := [1] },
        { name := utf8 "comment.block"
          contentName := []
          body :=
            .region (Pattern.compile? (utf8 "/\\*")) []
              (utf8 "\\*/") (.fixed (Pattern.compile? (utf8 "\\*/")))
              [] false
          patterns := [2]
          candidates := [2] },
        { name := utf8 "meta.braces"
          contentName := []
          body :=
            .region (Pattern.compile? (utf8 "\\\x7b")) []
              (utf8 "\\\x7d")
              (.fixed (Pattern.compile? (utf8 "\\\x7d"))) [] false
          patterns := [2]
          candidates := [2] }] }

/-
  A comment is opened on one line, and a brace inside it.  On the
  next ones the brace is closed and others are opened, one line is
  empty and one too long, but the end of the comment is missing.
-/
theorem tokenizeLines?_unclosed_braces :
    let lines :=
      [(utf8 "c \x7d * / \x7b\x7b", 0), ([], 0), (utf8 "\x7d d", 2)]
    ∃ prior inner frame root results,
      tokenizeLine? Engine.standard Grammar.bracedComments
            (utf8 "a /* b \x7b") RuleStack.empty 0 =
          some prior ∧
        prior.stack.frames = [inner, frame, root] ∧
        frame.contentScopes =
          [utf8 "source.braces", utf8 "comment.block"] ∧
        tokenizeLines? Engine.standard Grammar.bracedComments
            prior.stack lines =
          some results ∧
        List.Forall₂
          (fun line result =>
            Tokens.Partition line.1.length result.tokens ∧
              result.Inside frame [root])
          lines results := by
  intro lines
  have hFirst : ∃ tokens inner frame root,
      tokenizeLineWithin? 9 Grammar.bracedComments
            (utf8 "a /* b \x7b") RuleStack.empty 0 =
          some ⟨tokens, ⟨[inner, frame, root]⟩⟩ ∧
        frame.contentScopes =
          [utf8 "source.braces", utf8 "comment.block"] ∧
        frame.ending = Pattern.compile? (utf8 "\\*/") :=
    ⟨_, _, _, _, rfl, rfl, rfl⟩
  rcases hFirst with
    ⟨tokens, inner, frame, root, hFirst, hScopes, hEnding⟩
  have hPrior := tokenizeLine?_of_within? hFirst
  have hUnended :
      ∀ line ∈ lines,
        frame.Unended Engine.standard line.1.toArray := by
    unfold Frame.Unended
    rw [hEnding]
    decide +kernel
  rcases
      tokenizeLines?_unclosed Engine.standard_staysInside
        (.line .empty hPrior) (List.suffix_cons inner [frame, root])
        hUnended with
    ⟨results, hResults, hInside⟩
  exact
    ⟨_, inner, frame, root, results, hPrior, rfl, hScopes, hResults,
      hInside⟩

------------------------------------------------------------
-- Documents
------------------------------------------------------------

namespace TokenizedDocument

variable {d : TokenizedDocument}
variable {frame : Frame}
variable {below : List Frame}

/-
  One more line of a document is cut from a stack that lines leave
  behind, and its own stack is the next one.
-/
theorem exists_tokenizeLine?_of_reached
    (hReached :
      d.nextStack.Reached d.grammar.engine.toEngine d.grammar)
    (text : Bytes) :
    ∃ made,
      tokenizeLine? d.grammar.engine.toEngine d.grammar text d.nextStack
            d.maxLength =
          some made ∧
        (d.advance text).tokenized = d.tokenized.push made ∧
          (d.advance text).nextStack = made.stack := by
  rcases
      exists_tokenizeLine?_eq_some d.grammar.engine.staysInside d.grammar
        (RuleStack.rooted_of_reached d.grammar.engine.staysInside
          hReached)
        text d.maxLength with
    ⟨made, hLine, _⟩
  exact ⟨made, hLine, tokenized_advance hLine⟩

/- However many lines are tokenized, the next stack is such a one. -/
theorem reached_extend
    (n : Nat) :
    ∀ {d : TokenizedDocument},
      d.nextStack.Reached d.grammar.engine.toEngine d.grammar →
        (d.extend n).nextStack.Reached
          (d.extend n).grammar.engine.toEngine (d.extend n).grammar := by
  induction n with
  | zero =>
      intro d hReached
      exact hReached
  | succ n ih =>
      intro d hReached
      cases hLine : d.lines[d.tokenized.size]? with
      | none =>
          rw [extend_of_done (Array.getElem?_eq_none_iff.mp hLine)]
          exact hReached
      | some text =>
          rcases exists_tokenizeLine?_of_reached hReached text with
            ⟨made, hMade, _, hNext⟩
          rw [extend_of_line hLine]
          apply ih
          rw [hNext]
          exact .line hReached hMade

/-
  The lines that are tokenized from now on lie inside a region of
  the next stack, if its end is found on none of them.  The
  induction is on their number.
-/
theorem inside_extend
    (n : Nat) :
    ∀ {d : TokenizedDocument},
      d.nextStack.Reached d.grammar.engine.toEngine d.grammar →
        frame :: below <:+ d.nextStack.frames →
          (∀ line text,
            d.tokenized.size ≤ line →
              d.lines[line]? = some text →
                frame.Unended d.grammar.engine.toEngine text.toArray) →
            ∀ line result,
              d.tokenized.size ≤ line →
                (d.extend n).tokenized[line]? = some result →
                  result.Inside frame below := by
  induction n with
  | zero =>
      intro d _ _ _ line result hFrom hResult
      have hNone : (d.extend 0).tokenized[line]? = none :=
        Array.getElem?_eq_none hFrom
      rw [hNone] at hResult
      cases hResult
  | succ n ih =>
      intro d hReached hKept hUnended line result hFrom hResult
      cases hLine : d.lines[d.tokenized.size]? with
      | none =>
          rw [extend_of_done (Array.getElem?_eq_none_iff.mp hLine),
            Array.getElem?_eq_none hFrom] at hResult
          cases hResult
      | some text =>
          rcases exists_tokenizeLine?_of_reached hReached text with
            ⟨made, hMade, hTokenized, hNext⟩
          have hInside :=
            inside_of_tokenizeLine? d.grammar.engine.staysInside
              (RuleStack.nested_of_reached hReached) hKept
              (hUnended _ text (Nat.le_refl _) hLine) hMade
          have hSize :
              (d.advance text).tokenized.size =
                d.tokenized.size + 1 := by
            rw [hTokenized, Array.size_push]
          rw [extend_of_line hLine] at hResult
          by_cases hFirst : line = d.tokenized.size
          · rw [getElem?_extend _ _ (by omega), hTokenized, hFirst,
              Array.getElem?_push_size] at hResult
            cases hResult
            exact hInside
          · refine ih ?_ ?_ ?_ line result (by omega) hResult
            · rw [hNext]
              exact .line hReached hMade
            · rw [hNext]
              exact hInside.kept
            · intro other text' hOther hText
              exact hUnended other text' (by omega) hText

/-
  A region that is open behind some lines of a document and whose
  end is found on no later line goes on to the end of the document,
  however much of it is tokenized when a line is asked for.
-/
theorem lineTokens_unclosed
    {grammar : Grammar}
    {document : Document}
    {maxLength first n line : Nat}
    {result : LineTokens}
    (hKept :
      frame :: below <:+
        ((create grammar document maxLength).extend
          first).nextStack.frames)
    (hUnended :
      ∀ later text,
        first ≤ later →
          document.lines[later]? = some text →
            frame.Unended grammar.engine.toEngine text.toArray)
    (hFrom : first ≤ line)
    (hAsked :
      (((create grammar document maxLength).extend n).lineTokens
          line).1 =
        .ok result) :
    result.Inside frame below := by
  have hFresh := fresh_create grammar document maxLength
  have hReached :=
    reached_extend (d := create grammar document maxLength) first
      .empty
  unfold lineTokens at hAsked
  split at hAsked
  case isFalse => cases hAsked
  case isTrue hLine =>
  rw [lineCount, lines_extend] at hLine
  have hSum :
      max n (line + 1) = first + (max n (line + 1) - first) := by
    omega
  have hSize :
      ((create grammar document maxLength).extend
          first).tokenized.size =
        min first (create grammar document maxLength).lines.size :=
    size_extend_of_fresh hFresh first
  rw [reach_extend hFresh hLine, hSum, ← extend_extend] at hAsked
  dsimp only at hAsked
  split at hAsked
  case h_2 => cases hAsked
  case h_1 tokens hTokens =>
  cases hAsked
  refine inside_extend _ hReached hKept ?_ line result ?_ hTokens
  · intro later text hLater hText
    rw [lines_extend] at hText
    rw [(setup_extend first _).1]
    refine hUnended later text ?_ ?_
    · have hLt := (Array.getElem?_eq_some_iff.mp hText).1
      omega
    · simpa [create] using hText
  · omega

end TokenizedDocument

end Marginalia

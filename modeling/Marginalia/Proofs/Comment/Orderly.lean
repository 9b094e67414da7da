import Marginalia.Proofs.Comment.Neat
import Marginalia.Proofs.Token.Stacks

/-
  This file proves that lines cut with a neat grammar are orderly:
  their tokens are linked as those of comments are, and inside a
  marked block comment the last token belongs to it and is no end
  mark.

  Each part of a line is coloured in one of four ways: outside
  comments, by a line comment, by a block comment, or as a mark
  that is coloured as a whole.  That every move keeps a line
  orderly is put together from these.

  Key definitions include:
    * `LineState.Orderly`
    * `RuleStack.Continues`
  The main statements are:
    * `LineState.orderly_of_moves`
    * `LineState.orderly_of_stops`
    * `linked_of_tokenizeLine?`
-/

namespace Marginalia

open Scope (NoComment OneComment)
open Tokens (Linked lastScopes?)

variable {marked : Bool}
variable {grammar : Grammar}
variable {line : Bytes}
variable {before? : Option (List Scope)}
variable {tokens : List Token}
variable {m : Match}
variable {base : List Scope}
variable {captures : CaptureNames}
variable {scope : Scope}

------------------------------------------------------------
-- Coloured Matches
------------------------------------------------------------

namespace Captures

/- The scopes of a match, and the name of a group of it. -/
theorem coloured_append
    {c : Nat × Bytes}
    (base : List Scope)
    (hC : c ∈ captures) :
    Coloured base captures (base ++ [c.2]) where
  mem_of_base := fun s hBase => List.mem_append_left _ hBase
  base_or_name := by
    intro s hScope
    rcases List.mem_append.mp hScope with hBase | hName
    · exact Or.inl hBase
    · exact Or.inr ⟨c, hC, (List.mem_singleton.mp hName).symm⟩

/- A match outside comments is linked to anything. -/
theorem linked_emit_of_noComment
    (hBase : NoComment base)
    (hCaptures : ∀ c ∈ captures, Scope.isUnder c.2 Scope.comment = false)
    (hLinked : Linked (CommentLink marked line) before? tokens) :
    Linked (CommentLink marked line) before?
      (emit m base captures tokens) := by
  apply linked_emit hLinked
  · intro _ scopes hScopes
    exact
      CommentLink.of_noComment
        (Scope.noComment_of_coloured hBase hCaptures hScopes)
  · intro _ start older scopes _ hScopes
    exact
      CommentLink.of_noComment
        (Scope.noComment_of_coloured hBase hCaptures hScopes)

/- A line comment is linked if it starts with a character. -/
theorem linked_emit_of_line
    (hBase : OneComment scope base)
    (hCaptures : ∀ c ∈ captures, Scope.isUnder c.2 Scope.comment = false)
    (hLine : scope.isLineComment = true)
    (hSharp : Utf16.Sharp line m.start)
    (hLinked : Linked (CommentLink marked line) before? tokens) :
    Linked (CommentLink marked line) before?
      (emit m base captures tokens) := by
  have hNoBlock : scope.isLineComment ≠ false := by
    rw [hLine]
    exact Bool.noConfusion
  apply linked_emit hLinked
  · intro _ scopes hScopes
    exact
      CommentLink.of_oneComment
        (Scope.oneComment_of_coloured hBase hCaptures hScopes)
        (fun _ => Or.inl hSharp)
        (fun _ hBlock => absurd hBlock hNoBlock)
        (fun _ hBlock => absurd hBlock hNoBlock)
  · intro _ start older scopes hOlder hScopes
    exact
      CommentLink.of_oneComment
        (Scope.oneComment_of_coloured hBase hCaptures hScopes)
        (fun _ =>
          Or.inr ⟨older, rfl, hOlder.mem_of_base scope hBase.mem⟩)
        (fun _ hBlock => absurd hBlock hNoBlock)
        (fun _ hBlock => absurd hBlock hNoBlock)

/- Of a block comment nothing is asked unless it is marked. -/
theorem linked_emit_of_block
    (hBase : OneComment scope base)
    (hCaptures : ∀ c ∈ captures, Scope.isUnder c.2 Scope.comment = false)
    (hBlock : scope.isLineComment = false)
    (hUnmarked : marked = false)
    (hLinked : Linked (CommentLink marked line) before? tokens) :
    Linked (CommentLink marked line) before?
      (emit m base captures tokens) := by
  subst hUnmarked
  have hLink :
      ∀ {older? : Option (List Scope)} {start : Nat}
        {scopes : List Scope},
        Coloured base captures scopes →
          CommentLink false line older? start scopes := by
    intro older? start scopes hScopes
    apply
      CommentLink.of_oneComment
        (Scope.oneComment_of_coloured hBase hCaptures hScopes)
    · intro hLine
      rw [hBlock] at hLine
      cases hLine
    all_goals
      intro hMarked
      cases hMarked
  exact
    linked_emit hLinked (fun _ _ hScopes => hLink hScopes)
      (fun _ _ _ _ _ hScopes => hLink hScopes)

end Captures

------------------------------------------------------------
-- Rules
------------------------------------------------------------

namespace Scope

/- A scope of a comment is a name. -/
theorem ne_nil_of_isUnder_comment
    (hUnder : scope.isUnder comment = true) :
    scope ≠ [] := by
  rintro rfl
  cases hUnder

/- So is a scope of a begin mark. -/
theorem ne_nil_of_isUnder_openMark
    (hUnder : scope.isUnder openMark = true) :
    scope ≠ [] := by
  rintro rfl
  cases hUnder

/- What is known of the scope of a block comment. -/
theorem properties_of_isBlock
    (hBlock : scope.isBlock = true) :
    scope.isUnder comment = true ∧
      scope.isLineComment = false ∧
        scope.isUnder openMark = false ∧
          scope.isUnder closeMark = false := by
  simp only [isBlock, Bool.and_eq_true, Bool.not_eq_true'] at hBlock
  exact ⟨hBlock.1.1.1, hBlock.1.1.2, hBlock.1.2, hBlock.2⟩

/- The marks among the scopes of a block comment, and one more. -/
theorem marks_of_block
    (hBase : ∀ s ∈ base, s.isPlain = true)
    (hBlock : scope.isBlock = true)
    (more : List Scope) :
    begins (base ++ [scope] ++ more) = begins more ∧
      ends (base ++ [scope] ++ more) = ends more := by
  rcases marks_of_isPlain hBase with ⟨hBegins, hEnds⟩
  rcases properties_of_isBlock hBlock with ⟨_, _, hOpen, hClose⟩
  unfold begins ends at *
  simp [hBegins, hEnds, hOpen, hClose]

end Scope

namespace LineState

/- The name of a comment is added to the scopes. -/
theorem withScope_of_comment
    (hScope : scope.isUnder Scope.comment = true)
    (base : List Scope) :
    withScope base scope = base ++ [scope] := by
  unfold withScope
  rw [if_neg]
  simpa using Scope.ne_nil_of_isUnder_comment hScope

/- A plain name keeps the scopes plain. -/
theorem isPlain_withScope
    (hBase : ∀ s ∈ base, s.isPlain = true)
    (hScope : scope.isPlain = true) :
    ∀ s ∈ withScope base scope, s.isPlain = true := by
  unfold withScope
  split
  · exact hBase
  · intro s hMember
    rcases List.mem_append.mp hMember with hOld | hNew
    · exact hBase s hOld
    · rw [List.mem_singleton.mp hNew]
      exact hScope

end LineState

namespace Rule

variable {engine : Engine}
variable {rule : Rule}
variable {opening : Option Pattern}
variable {endCaptures : CaptureNames}
variable {endSource : Bytes}
variable {ending : Ending}
variable {endLast : Bool}
variable {pattern : Pattern}
variable {column : Nat}

/- A match of a pattern that opens with a byte starts a character. -/
theorem sharp_of_opens
    (hFinds : engine.FindsAsWritten)
    (hOpens : pattern.root.opens = true)
    (hSearch : engine.search? pattern line.toArray column = some m) :
    m.start < m.stop ∧ Utf16.Sharp line m.start := by
  rcases hFinds.opens hOpens hSearch with
    ⟨hWide, b, hByte, hStarts⟩
  rw [List.getElem?_toArray] at hByte
  exact ⟨hWide, Utf16.sharp_of_not_continuation hByte hStarts⟩

/- The begin of a marked comment is coloured as a whole. -/
theorem emit_of_marks
    (hFinds : engine.FindsAsWritten)
    (hMarks :
      Marks engine (some pattern) captures endSource ending
        endCaptures)
    (hSearch : engine.search? pattern line.toArray column = some m)
    (base : List Scope)
    (tokens : List Token) :
    ∃ c ∈ captures,
      Scope.isUnder c.2 Scope.openMark = true ∧
        Scope.isUnder c.2 Scope.closeMark = false ∧
          m.start < m.stop ∧
            Utf16.Sharp line m.start ∧
              Captures.emit m base captures tokens =
                Tokens.push tokens m.start m.stop (base ++ [c.2]) := by
  rcases hMarks.begins with ⟨number, name, rfl, hOpen, hClose, hCovered⟩
  rcases sharp_of_opens hFinds (hMarks.opens pattern rfl) hSearch with
    ⟨hWide, hSharp⟩
  refine
    ⟨(number, name), List.mem_cons_self, hOpen, hClose, hWide, hSharp,
      ?_⟩
  exact
    Captures.emit_eq_push
      (hFinds.covers (hCovered pattern rfl) hSearch)
      (Scope.ne_nil_of_isUnder_openMark hOpen) base tokens

/- A single match that is coloured by a neat rule is linked. -/
theorem linked_emit_single
    (hFinds : engine.FindsAsWritten)
    (hNeat : rule.Neat engine marked)
    (hBody : rule.body = .single (some pattern) captures)
    (hBase : ∀ s ∈ base, s.isPlain = true)
    (hSearch : engine.search? pattern line.toArray column = some m)
    (hLinked : Linked (CommentLink marked line) before? tokens) :
    Linked (CommentLink marked line) before?
      (Captures.emit m (LineState.withScope base rule.name) captures
        tokens) := by
  cases hNeat with
  | single hThis hName hCaptures =>
      rw [hBody] at hThis
      cases hThis
      exact
        Captures.linked_emit_of_noComment
          (Scope.noComment_of_isPlain
            (LineState.isPlain_withScope hBase hName))
          hCaptures hLinked
  | line hThis hName hLine hCaptures hOpens =>
      rw [hBody] at hThis
      cases hThis
      rw [LineState.withScope_of_comment hName]
      exact
        Captures.linked_emit_of_line
          (Scope.oneComment_append (Scope.noComment_of_isPlain hBase)
            hName)
          hCaptures hLine
          (sharp_of_opens hFinds (hOpens pattern rfl) hSearch).2 hLinked
  | container hThis | region hThis | block hThis =>
      rw [hBody] at hThis
      cases hThis

/- The begin of a region that is coloured by a neat rule is linked. -/
theorem linked_emit_region
    (hFinds : engine.FindsAsWritten)
    (hNeat : rule.Neat engine marked)
    (hBody :
      rule.body =
        .region (some pattern) captures endSource ending endCaptures
          endLast)
    (hBase : ∀ s ∈ base, s.isPlain = true)
    (hSearch : engine.search? pattern line.toArray column = some m)
    (hLinked : Linked (CommentLink marked line) before? tokens) :
    Linked (CommentLink marked line) before?
      (Captures.emit m (LineState.withScope base rule.name) captures
        tokens) := by
  cases hNeat with
  | region hThis hName hContent hCaptures hEndCaptures =>
      rw [hBody] at hThis
      cases hThis
      exact
        Captures.linked_emit_of_noComment
          (Scope.noComment_of_isPlain
            (LineState.isPlain_withScope hBase hName))
          hCaptures hLinked
  | block hThis hName hContent hCandidates hCaptures hEndCaptures
      hMarks =>
      rw [hBody] at hThis
      cases hThis
      rcases Scope.properties_of_isBlock hName with
        ⟨hUnder, hKind, _, _⟩
      rw [LineState.withScope_of_comment hUnder]
      have hOne :=
        Scope.oneComment_append (Scope.noComment_of_isPlain hBase) hUnder
      cases hMarked : marked with
      | false =>
          subst hMarked
          exact
            Captures.linked_emit_of_block hOne hCaptures hKind rfl
              hLinked
      | true =>
          subst hMarked
          rcases
              emit_of_marks hFinds (hMarks rfl) hSearch
                (base ++ [rule.name]) tokens with
            ⟨c, hC, hOpen, _, _, hSharp, hEmit⟩
          have hBegins :
              Scope.begins (base ++ [rule.name] ++ [c.2]) = true := by
            rw [(Scope.marks_of_block hBase hName [c.2]).1]
            simp [Scope.begins, hOpen]
          rw [hEmit]
          apply Tokens.linked_push hLinked
          intro _
          exact
            CommentLink.of_oneComment
              (Scope.oneComment_of_coloured hOne hCaptures
                (Captures.coloured_append _ hC))
              (fun _ => Or.inl hSharp) (fun _ _ => Or.inl hSharp)
              (fun _ _ _ _ _ _ => hBegins)
  | container hThis | single hThis | line hThis =>
      rw [hBody] at hThis
      cases hThis

end Rule

------------------------------------------------------------
-- Frames
------------------------------------------------------------

namespace Frame

variable {frame : Frame}

/- What is coloured inside a block comment belongs to it alone. -/
theorem oneComment_of_ofComment
    (hComment : frame.OfComment marked grammar scope) :
    OneComment scope frame.contentScopes ∧
      OneComment scope frame.nameScopes := by
  rcases hComment.exists_base with ⟨base, hBase, hNames, hContent⟩
  have hOne :=
    Scope.oneComment_append (Scope.noComment_of_isPlain hBase)
      (Scope.properties_of_isBlock hComment.isBlock).1
  rw [hNames, hContent]
  exact ⟨hOne, hOne⟩

/- There is no mark among the scopes inside a block comment. -/
theorem marks_of_ofComment
    (hComment : frame.OfComment marked grammar scope) :
    Scope.begins frame.contentScopes = false ∧
      Scope.ends frame.contentScopes = false := by
  rcases hComment.exists_base with ⟨base, hBase, _, hContent⟩
  have hMarks := Scope.marks_of_block hBase hComment.isBlock []
  rw [List.append_nil] at hMarks
  rw [hContent]
  exact hMarks

/- A frame is one of a single comment. -/
theorem eq_of_ofComment
    {other : Scope}
    (hComment : frame.OfComment marked grammar scope)
    (hOther : frame.OfComment marked grammar other) :
    other = scope :=
  (oneComment_of_ofComment hComment).1.eq_of_under other
    (oneComment_of_ofComment hOther).1.mem
    (Scope.properties_of_isBlock hOther.isBlock).1

end Frame

------------------------------------------------------------
-- Orderly Lines
------------------------------------------------------------

namespace LineState

/-
  The line is cut up to a column, and its tokens are linked.  Inside
  a marked block comment the last token belongs to it, and is no
  end mark.
-/
structure Orderly
    (marked : Bool)
    (grammar : Grammar)
    (line : Bytes)
    (before? : Option (List Scope))
    (column : Nat)
    (state : LineState) : Prop where
  stack : state.stack.Neat marked grammar
  tiles : Tokens.Tiles state.tokens column
  linked : Linked (CommentLink marked line) before? state.tokens
  inside :
    marked = true →
      ∀ {scope : Scope},
        state.top.OfComment marked grammar scope →
          ∀ older ∈ lastScopes? before? state.tokens,
            scope ∈ older ∧ Scope.ends older = false

variable {state next last : LineState}
variable {column stop : Nat}

/-
  What is coloured next inside a marked block comment starts with
  a character, or comes after a token of the comment.
-/
theorem sharp_or_exists_of_orderly
    (hState : state.Orderly marked grammar line before? column)
    (hMarked : marked = true)
    (hComment : state.top.OfComment marked grammar scope) :
    Utf16.Sharp line column ∨
      ∃ older ∈ lastScopes? before? state.tokens, scope ∈ older := by
  have hTiles := hState.tiles
  have hInside := hState.inside hMarked hComment
  cases hTokens : state.tokens with
  | nil =>
      rw [hTokens] at hTiles
      have hFirst : column = 0 := hTiles
      rw [hFirst]
      exact Or.inl (Utf16.sharp_zero line)
  | cons token rest =>
      rw [hTokens] at hInside
      exact Or.inr ⟨token.scopes, rfl, (hInside token.scopes rfl).1⟩

/- Colouring by the innermost region keeps the line orderly. -/
theorem orderly_fill
    (hState : state.Orderly marked grammar line before? column)
    (hStop : column ≤ stop) :
    (state.fill column stop).Orderly marked grammar line before?
      stop where
  stack := hState.stack
  tiles := Tokens.tiles_push hState.tiles hStop _
  linked := by
    apply Tokens.linked_push hState.linked
    intro _
    rcases hState.stack.1 with hPlain | ⟨_, scope, hComment⟩
    · exact
        CommentLink.of_noComment
          (Scope.noComment_of_isPlain hPlain.contentScopes)
    · apply
        CommentLink.of_oneComment
          (Frame.oneComment_of_ofComment hComment).1
      · intro hLine
        rw [(Scope.properties_of_isBlock hComment.isBlock).2.1] at hLine
        cases hLine
      · intro hMarked _
        rcases sharp_or_exists_of_orderly hState hMarked hComment with
          hSharp | hOlder
        · exact Or.inl hSharp
        · exact Or.inr ⟨(Frame.marks_of_ofComment hComment).1, hOlder⟩
      · intro hMarked _ older hOlder _ hEnds
        rw [(hState.inside hMarked hComment older hOlder).2] at hEnds
        cases hEnds
  inside := by
    intro hMarked scope hComment older hOlder
    by_cases hWide : column < stop
    · have hLast :
          lastScopes? before? (state.fill column stop).tokens =
            some state.top.contentScopes :=
        Tokens.lastScopes?_push hWide
      rw [hLast] at hOlder
      cases hOlder
      exact
        ⟨(Frame.oneComment_of_ofComment hComment).1.mem,
          (Frame.marks_of_ofComment hComment).2⟩
    · have hNothing : (state.fill column stop).tokens = state.tokens := by
        unfold fill Tokens.push
        rw [if_pos (by omega)]
      rw [hNothing] at hOlder
      exact hState.inside hMarked hComment older hOlder

/-
  A rule is found outside comments only, as no rule is tried
  inside a block comment.
-/
theorem plain_of_best?
    {engine : Engine}
    {id : RuleId}
    {text : Array UInt8}
    {pattern : Option Pattern}
    (hStack : state.stack.Neat marked grammar)
    (hBest :
      state.best? engine grammar text = some ⟨m, .rule id⟩)
    (hPattern : (grammar.rule id).pattern? = pattern) :
    state.top.Plain ∧
      ∃ p,
        pattern = some p ∧
          engine.search? p text state.column = some m := by
  rcases exists_trial_of_best? hBest with
    ⟨trial, hMember, hOrigin, hFound⟩
  rcases mem_trials_iff.mp hMember with ⟨closing, _, rfl⟩ | hRule
  · cases hOrigin
  · rcases List.mem_filterMap.mp hRule with ⟨other, hOther, hMap⟩
    rcases Option.map_eq_some_iff.mp hMap with ⟨p, hThis, rfl⟩
    cases hOrigin
    refine ⟨?_, p, hPattern.symm.trans hThis, hFound⟩
    rcases hStack.1 with hPlain | ⟨_, scope, hComment⟩
    · exact hPlain
    · rw [hComment.candidates] at hOther
      cases hOther

/- Outside comments it is enough that the tokens are linked. -/
theorem orderly_of_plain
    (hTop : state.top.Plain)
    (hBelow : ∀ frame ∈ state.below, frame.Plain)
    (hTiles : Tokens.Tiles state.tokens column)
    (hLinked : Linked (CommentLink marked line) before? state.tokens) :
    state.Orderly marked grammar line before? column where
  stack := ⟨Or.inl hTop, hBelow⟩
  tiles := hTiles
  linked := hLinked
  inside := by
    intro _ scope hComment
    exact absurd hComment (Frame.not_ofComment_of_plain hTop scope)

/- Going on at a column changes nothing that is asked for. -/
theorem orderly_moveTo
    (hState : state.Orderly marked grammar line before? column)
    (stop : Nat) :
    (state.moveTo stop).Orderly marked grammar line before? column where
  stack := hState.stack
  tiles := hState.tiles
  linked := hState.linked
  inside := hState.inside

------------------------------------------------------------
-- Closing a Region
------------------------------------------------------------

/- The end of a region is linked. -/
theorem linked_emit_ending
    {pattern : Pattern}
    {start : Nat}
    (hNeat : grammar.Neat marked)
    (hState : state.Orderly marked grammar line before? m.start)
    (hEnding : state.top.ending = some pattern)
    (hSearch :
      grammar.engine.search? pattern line.toArray start = some m) :
    Linked (CommentLink marked line) before?
      (Captures.emit m state.top.nameScopes
        (grammar.rule state.top.ruleId).endCaptures state.tokens) := by
  have hCaptures :=
    Rule.endCaptures_of_neat (hNeat.rules state.top.ruleId)
  rcases hState.stack.1 with hPlain | ⟨_, scope, hComment⟩
  · exact
      Captures.linked_emit_of_noComment
        (Scope.noComment_of_isPlain hPlain.nameScopes) hCaptures
        hState.linked
  · have hOne := (Frame.oneComment_of_ofComment hComment).2
    have hKind := (Scope.properties_of_isBlock hComment.isBlock).2.1
    cases hMarked : marked with
    | false =>
        subst hMarked
        exact
          Captures.linked_emit_of_block hOne hCaptures hKind rfl
            hState.linked
    | true =>
        subst hMarked
        rcases hComment.covered rfl with
          ⟨number, name, hEnd, hName, hOpen, hCovered⟩
        rcases hComment.exists_base with ⟨base, hBase, hNames, _⟩
        rw [hEnd] at hCaptures ⊢
        have hBegins :
            Scope.begins (state.top.nameScopes ++ [name]) = false := by
          rw [hNames,
            (Scope.marks_of_block hBase hComment.isBlock [name]).1]
          simp [Scope.begins, hOpen]
        rw [Captures.emit_eq_push
          (hNeat.finds.covers (hCovered pattern hEnding) hSearch)
          hName]
        apply Tokens.linked_push hState.linked
        intro _
        apply
          CommentLink.of_oneComment
            (Scope.oneComment_of_coloured hOne hCaptures
              (@Captures.coloured_append _ (number, name) _
                List.mem_cons_self))
        · intro hLine
          rw [hKind] at hLine
          cases hLine
        · intro _ _
          rcases sharp_or_exists_of_orderly hState rfl hComment with
            hSharp | hOlder
          · exact Or.inl hSharp
          · exact Or.inr ⟨hBegins, hOlder⟩
        · intro _ _ older hOlder _ hEnds
          rw [(hState.inside rfl hComment older hOlder).2] at hEnds
          cases hEnds

/- Closing the innermost region leads out of a comment. -/
theorem plain_of_closeRegion
    (hStack : state.stack.Neat marked grammar) :
    state.closeRegion.top.Plain ∧
      ∀ frame ∈ state.closeRegion.below, frame.Plain := by
  unfold closeRegion
  cases hBelow : state.below with
  | nil =>
      dsimp only
      refine ⟨?_, hStack.2⟩
      rcases hStack.1 with hPlain | ⟨hSome, _⟩
      · exact hPlain
      · exact absurd hBelow hSome
  | cons frame frames =>
      have hPlain := hStack.2
      change ∀ frame ∈ state.below, frame.Plain at hPlain
      rw [hBelow] at hPlain
      exact
        ⟨hPlain frame List.mem_cons_self,
          fun other hOther =>
            hPlain other (List.mem_cons_of_mem _ hOther)⟩

------------------------------------------------------------
-- Opening a Region
------------------------------------------------------------

/- The frame of a region that is opened. -/
def regionFrame
    (grammar : Grammar)
    (state : LineState)
    (id : RuleId)
    (closing : Pattern)
    (source : Bytes) : Frame :=
  { ruleId := id
    ending := some closing
    endSource := source
    nameScopes :=
      withScope state.top.contentScopes (grammar.rule id).name
    contentScopes :=
      withScope
        (withScope state.top.contentScopes (grammar.rule id).name)
        (grammar.rule id).contentName
    depth := state.top.depth + 1 }

variable {engine : Engine}
variable {id : RuleId}
variable {pattern closing : Pattern}
variable {endCaptures : CaptureNames}
variable {endSource source : Bytes}
variable {ending : Ending}
variable {endLast : Bool}

/- The frame of a block comment. -/
theorem ofComment_regionFrame
    (hTop : state.top.Plain)
    (hBody :
      (grammar.rule id).body =
        .region (some pattern) captures endSource ending endCaptures
          endLast)
    (hName : Scope.isBlock (grammar.rule id).name = true)
    (hContent : (grammar.rule id).contentName = [])
    (hCandidates : (grammar.rule id).candidates = [])
    (hMarks :
      marked = true →
        Rule.Marks engine (some pattern) captures endSource ending
          endCaptures)
    (hSearch : engine.search? pattern line.toArray column = some m)
    (hEnding :
      endingFor engine line.toArray m endSource ending =
        (some closing, source)) :
    (regionFrame grammar state id closing source).OfComment marked
      grammar (grammar.rule id).name where
  isBlock := hName
  exists_base := by
    have hNames :=
      withScope_of_comment (Scope.properties_of_isBlock hName).1
        state.top.contentScopes
    refine
      ⟨state.top.contentScopes, hTop.contentScopes, hNames, ?_⟩
    unfold regionFrame
    dsimp only
    rw [hContent, hNames]
    rfl
  candidates := hCandidates
  covered := by
    intro hMarked
    rcases (hMarks hMarked).ends with
      ⟨number, name, hEnd, hNamed, hOpen, hCovered⟩
    refine ⟨number, name, ?_, hNamed, hOpen, ?_⟩
    · simp [regionFrame, Rule.endCaptures, hBody, hEnd]
    · intro other hOther
      cases hOther
      exact hCovered pattern rfl hSearch hEnding

/- Opening a region with a neat rule keeps the line orderly. -/
theorem orderly_enter
    (hNeat : grammar.Neat marked)
    (hState : state.Orderly marked grammar line before? m.start)
    (hTop : state.top.Plain)
    (hBounds : m.start ≤ m.stop)
    (hBody :
      (grammar.rule id).body =
        .region (some pattern) captures endSource ending endCaptures
          endLast)
    (hSearch :
      grammar.engine.search? pattern line.toArray column = some m)
    (hEnding :
      endingFor grammar.engine.toEngine line.toArray m endSource
            ending =
        (some closing, source)) :
    ((state.colour m
          (withScope state.top.contentScopes (grammar.rule id).name)
          captures).openRegion m
        (regionFrame grammar state id closing source)).Orderly
      marked grammar line before? m.stop := by
  have hRule := hNeat.rules id
  have hTiles :
      Tokens.Tiles
        (Captures.emit m
          (withScope state.top.contentScopes (grammar.rule id).name)
          captures state.tokens)
        m.stop :=
    Captures.tiles_emit hState.tiles hBounds _ _
  have hLinked :=
    Rule.linked_emit_region hNeat.finds hRule hBody hTop.contentScopes
      hSearch hState.linked
  have hBelow : ∀ frame ∈ state.top :: state.below, frame.Plain := by
    intro frame hFrame
    rcases List.mem_cons.mp hFrame with rfl | hLower
    · exact hTop
    · exact hState.stack.2 frame hLower
  cases hRule with
  | region hThis hName hContent hCaptures hEndCaptures =>
      have hNames := isPlain_withScope hTop.contentScopes hName
      exact
        orderly_of_plain ⟨hNames, isPlain_withScope hNames hContent⟩
          hBelow hTiles hLinked
  | block hThis hName hContent hCandidates hCaptures hEndCaptures
      hMarks =>
      rw [hBody] at hThis
      cases hThis
      have hFrame :=
        ofComment_regionFrame hTop hBody hName hContent hCandidates
          hMarks hSearch hEnding
      refine
        ⟨⟨Or.inr ⟨List.cons_ne_nil _ _, _, hFrame⟩, hBelow⟩, hTiles,
          hLinked, ?_⟩
      intro hMarked scope hComment older hOlder
      -- The last token is the begin mark as a whole.
      rw [Frame.eq_of_ofComment hFrame hComment]
      rcases
          Rule.emit_of_marks hNeat.finds (hMarks hMarked) hSearch
            (state.top.contentScopes ++ [(grammar.rule id).name])
            state.tokens with
        ⟨c, _, _, hClose, hWide, _, hEmit⟩
      change
        older ∈
          lastScopes? before?
            (Captures.emit m
              (withScope state.top.contentScopes (grammar.rule id).name)
              captures state.tokens)
        at hOlder
      rw [withScope_of_comment (Scope.properties_of_isBlock hName).1,
        hEmit, Tokens.lastScopes?_push hWide] at hOlder
      cases hOlder
      refine ⟨by simp, ?_⟩
      rw [(Scope.marks_of_block hTop.contentScopes hName [c.2]).2]
      simp [Scope.ends, hClose]
  | container hThis | single hThis | line hThis =>
      rw [hBody] at hThis
      cases hThis

------------------------------------------------------------
-- Moves
------------------------------------------------------------

/- Every move keeps the line orderly. -/
theorem orderly_of_moves
    (hNeat : grammar.Neat marked)
    (hState :
      state.Orderly marked grammar line before? state.column)
    (hMoves :
      Moves grammar.engine.toEngine grammar line.toArray state next) :
    next.Orderly marked grammar line before? next.column := by
  cases hMoves with
  | @close m hBest =>
      have hBounds :=
        bounds_of_best? grammar.engine.staysInside hBest
      rcases exists_ending_of_best? hBest with
        ⟨pattern, hEnding, hSearch⟩
      have hFilled := orderly_fill hState hBounds.1
      have hLinked :=
        linked_emit_ending hNeat hFilled hEnding hSearch
      have hTiles :=
        Captures.tiles_emit hFilled.tiles hBounds.2.1
          state.top.nameScopes
          (grammar.rule state.top.ruleId).endCaptures
      rcases
          @plain_of_closeRegion marked grammar
            ((state.fill state.column m.start).colour m
              state.top.nameScopes
              (grammar.rule state.top.ruleId).endCaptures)
            hState.stack with
        ⟨hTop, hBelow⟩
      apply orderly_moveTo
      apply orderly_of_plain hTop hBelow
      · change Tokens.Tiles (closeRegion _).tokens m.stop
        rw [tokens_closeRegion]
        exact hTiles
      · rw [tokens_closeRegion]
        exact hLinked
  | @single m id pattern captures hBest hBody hWide =>
      have hBounds :=
        bounds_of_best? grammar.engine.staysInside hBest
      have hFilled := orderly_fill hState hBounds.1
      have hPattern : (grammar.rule id).pattern? = pattern := by
        rw [Rule.pattern?, hBody]
      rcases plain_of_best? hState.stack hBest hPattern with
        ⟨hTop, p, rfl, hSearch⟩
      exact
        orderly_of_plain hTop hState.stack.2
          (Captures.tiles_emit hFilled.tiles hBounds.2.1 _ _)
          (Rule.linked_emit_single hNeat.finds (hNeat.rules id) hBody
            hTop.contentScopes hSearch hFilled.linked)
  | @unending m id opening captures _ _ _ _ hBest hBody hRejected
      hWide =>
      have hBounds :=
        bounds_of_best? grammar.engine.staysInside hBest
      have hFilled := orderly_fill hState hBounds.1
      have hPattern : (grammar.rule id).pattern? = opening := by
        rw [Rule.pattern?, hBody]
      rcases plain_of_best? hState.stack hBest hPattern with
        ⟨hTop, p, rfl, hSearch⟩
      exact
        orderly_of_plain hTop hState.stack.2
          (Captures.tiles_emit hFilled.tiles hBounds.2.1 _ _)
          (Rule.linked_emit_region hNeat.finds (hNeat.rules id) hBody
            hTop.contentScopes hSearch hFilled.linked)
  | @enter m id opening captures _ _ _ _ _ _ hBest hBody hEnding hNew =>
      have hBounds :=
        bounds_of_best? grammar.engine.staysInside hBest
      have hFilled := orderly_fill hState hBounds.1
      have hPattern : (grammar.rule id).pattern? = opening := by
        rw [Rule.pattern?, hBody]
      rcases plain_of_best? hState.stack hBest hPattern with
        ⟨hTop, p, rfl, hSearch⟩
      exact
        orderly_enter hNeat hFilled hTop hBounds.2.1 hBody hSearch
          hEnding

/- The last step keeps the line orderly up to its end. -/
theorem orderly_of_stops
    (hState :
      state.Orderly marked grammar line before? state.column)
    (hColumn : state.column ≤ line.length)
    (hStops :
      Stops grammar.engine.toEngine grammar line.toArray state last) :
    last.Orderly marked grammar line before? line.length := by
  cases hStops with
  | nothing hBest => exact orderly_fill hState hColumn
  | @idle hit hBest =>
      rcases bounds_of_best? grammar.engine.staysInside hBest with
        ⟨hStart, hStop, hSize⟩
      exact
        orderly_fill (orderly_fill hState hStart)
          (Nat.le_trans hStop hSize)
  | @unending hit scopes captures hBest hEmpty =>
      rcases bounds_of_best? grammar.engine.staysInside hBest with
        ⟨hStart, hStop, hSize⟩
      rw [colour_of_empty hEmpty]
      exact
        orderly_fill (orderly_fill hState hStart)
          (Nat.le_trans hStop hSize)

/- Every state of a run is orderly if the first one is. -/
theorem orderly_of_reaches
    {first : LineState}
    (hNeat : grammar.Neat marked)
    (hFirst :
      first.Orderly marked grammar line before? first.column)
    (hReaches :
      Reaches grammar.engine.toEngine grammar line.toArray first
        state) :
    state.Orderly marked grammar line before? state.column := by
  induction hReaches with
  | refl => exact hFirst
  | next _ hStep ih =>
      exact orderly_of_moves hNeat ih (moves_of_step hStep)

/- No state of a run is past the end of the line. -/
theorem column_le_of_reaches
    {engine : Engine}
    {text : Array UInt8}
    {first : LineState}
    (hEngine : engine.StaysInside)
    (hFirst : first.column ≤ text.size)
    (hReaches : Reaches engine grammar text first state) :
    state.column ≤ text.size := by
  cases hReaches with
  | refl => exact hFirst
  | next _ hStep =>
      cases moves_of_step hStep with
      | close hBest => exact (bounds_of_best? hEngine hBest).2.2
      | single hBest => exact (bounds_of_best? hEngine hBest).2.2
      | unending hBest => exact (bounds_of_best? hEngine hBest).2.2
      | enter hBest => exact (bounds_of_best? hEngine hBest).2.2

end LineState

------------------------------------------------------------
-- Lines
------------------------------------------------------------

/-
  The stack is one that a line may start with, given the scopes of
  the last token before it.
-/
structure RuleStack.Continues
    (marked : Bool)
    (grammar : Grammar)
    (before? : Option (List Scope))
    (stack : RuleStack) : Prop where
  neat : stack.Neat marked grammar
  inside :
    marked = true →
      ∀ top ∈ stack.frames.head?,
        ∀ {scope : Scope},
          top.OfComment marked grammar scope →
            ∀ older ∈ before?, scope ∈ older ∧ Scope.ends older = false

/- Nothing is open at the start of a document. -/
theorem RuleStack.continues_empty :
    RuleStack.empty.Continues marked grammar before? where
  neat := trivial
  inside := by
    intro _ top hTop
    cases hTop

namespace LineState

variable {last : LineState}
variable {prior : RuleStack}

/- A line starts orderly. -/
theorem orderly_start
    (hNeat : grammar.Neat marked)
    (hPrior : prior.Continues marked grammar before?) :
    (start grammar prior).Orderly marked grammar line before? 0 := by
  rcases prior with ⟨frames⟩
  cases frames with
  | nil =>
      have hScopes :
          ∀ s ∈ [grammar.scopeName], Scope.isPlain s = true := by
        intro s hScope
        rw [List.mem_singleton.mp hScope]
        exact hNeat.scopeName
      refine orderly_of_plain ⟨hScopes, hScopes⟩ ?_ rfl trivial
      intro frame hFrame
      cases hFrame
  | cons top below =>
      exact
        ⟨hPrior.neat, rfl, trivial, fun hMarked _ =>
          hPrior.inside hMarked top rfl⟩

/- An orderly line leaves a stack that the next line may start with. -/
theorem continues_of_orderly
    {column : Nat}
    (hLast : last.Orderly marked grammar line before? column) :
    last.result.stack.Continues marked grammar
      (lastScopes? before? last.tokens) where
  neat := hLast.stack
  inside := by
    intro hMarked top hTop scope hComment
    cases hTop
    exact hLast.inside hMarked hComment

end LineState

/- A line of tokens that is cut with a neat grammar. -/
theorem linked_of_tokenizeLine?
    {prior : RuleStack}
    {maxLength : Nat}
    {result : LineTokens}
    (hNeat : grammar.Neat marked)
    (hPrior : prior.Continues marked grammar before?)
    (hLine :
      tokenizeLine? grammar.engine.toEngine grammar line prior
            maxLength =
        some result) :
    Linked (CommentLink marked line) before? result.tokens.reverse ∧
      result.stack.Continues marked grammar
        (lastScopes? before? result.tokens.reverse) := by
  have hStart := @LineState.orderly_start _ _ line _ _ hNeat hPrior
  have hResult :
      ∀ last : LineState,
        last.Orderly marked grammar line before? line.length →
          Linked (CommentLink marked line) before?
              last.result.tokens.reverse ∧
            last.result.stack.Continues marked grammar
              (lastScopes? before? last.result.tokens.reverse) := by
    intro last hLast
    have hSame : last.result.tokens.reverse = last.tokens :=
      List.reverse_reverse last.tokens
    rw [hSame]
    exact ⟨hLast.linked, LineState.continues_of_orderly hLast⟩
  unfold tokenizeLine? at hLine
  dsimp only at hLine
  split at hLine
  · cases hLine
    exact hResult _ (LineState.orderly_fill hStart (Nat.zero_le _))
  · rcases Option.map_eq_some_iff.mp hLine with ⟨last, hRun, rfl⟩
    rcases LineState.exists_reaches_of_run? hRun with
      ⟨state, hReaches, hStep⟩
    have hColumn :=
      LineState.column_le_of_reaches grammar.engine.staysInside
        (Nat.zero_le _) hReaches
    rw [List.size_toArray] at hColumn
    exact
      hResult last
        (LineState.orderly_of_stops
          (LineState.orderly_of_reaches hNeat hStart hReaches) hColumn
          (LineState.stops_of_step hStep))

end Marginalia

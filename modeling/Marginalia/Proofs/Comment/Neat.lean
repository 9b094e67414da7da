import Marginalia.Proofs.Comment.Columns
import Marginalia.Proofs.Pattern.Openings
import Marginalia.Proofs.Token.Pieces

/-
  This file says what a grammar has to be like so that comments
  can be told from their tokens.

  In a neat grammar nothing is matched inside a block comment but
  its end, and a line comment begins with a byte that starts a
  character.  If its block comments are marked too, then all of a
  begin is a begin mark, and all of an end is an end mark.

  The stacks of such a grammar have no comment but at their top.
  What holds of its tokens is said by links between neighbours,
  as the first token of a comment is only known from the one
  before it.

  Key definitions include:
    * `Scope.OneComment`, `Scope.NoComment`
    * `Rule.Neat`, `Grammar.Neat`
    * `Frame.Plain`, `Frame.OfComment`
    * `RuleStack.Neat`
    * `CommentLink`
  The main statements are:
    * `Scope.oneComment_of_coloured`
    * `CommentLink.of_oneComment`
-/

namespace Marginalia

------------------------------------------------------------
-- Scopes
------------------------------------------------------------

namespace Scope

/- The scope is none of a comment, and none of a mark. -/
def isPlain (s : Scope) : Bool :=
  !s.isUnder comment && !s.isUnder openMark && !s.isUnder closeMark

/- The scope is one of a block comment, and none of a mark. -/
def isBlock (s : Scope) : Bool :=
  s.isUnder comment && !s.isLineComment && !s.isUnder openMark &&
    !s.isUnder closeMark

/- One of the scopes is that of a begin mark. -/
def begins (scopes : List Scope) : Bool :=
  scopes.any (fun s => s.isUnder openMark)

/- One of the scopes is that of an end mark. -/
def ends (scopes : List Scope) : Bool :=
  scopes.any (fun s => s.isUnder closeMark)

/- None of the scopes is that of a comment. -/
def NoComment (scopes : List Scope) : Prop :=
  ∀ s ∈ scopes, s.isUnder comment = false

/- One of the scopes is that of a comment, and no other one is. -/
structure OneComment (scope : Scope) (scopes : List Scope) : Prop where
  mem : scope ∈ scopes
  under : scope.isUnder comment = true
  eq_of_under : ∀ s ∈ scopes, s.isUnder comment = true → s = scope

/- Plain scopes are those of no comment. -/
theorem noComment_of_isPlain
    {scopes : List Scope}
    (hPlain : ∀ s ∈ scopes, s.isPlain = true) :
    NoComment scopes := by
  intro s hScope
  have hThis := hPlain s hScope
  simp only [isPlain, Bool.and_eq_true, Bool.not_eq_true'] at hThis
  exact hThis.1.1

/- Plain scopes and one of a comment. -/
theorem oneComment_append
    {base : List Scope}
    {scope : Scope}
    (hBase : NoComment base)
    (hScope : scope.isUnder comment = true) :
    OneComment scope (base ++ [scope]) where
  mem := List.mem_append_right _ List.mem_cons_self
  under := hScope
  eq_of_under := by
    intro s hMember hUnder
    rcases List.mem_append.mp hMember with hIn | hLast
    · rw [hBase s hIn] at hUnder
      cases hUnder
    · exact List.mem_singleton.mp hLast

/- Scopes with names of groups that are those of no comment. -/
theorem noComment_of_coloured
    {base scopes : List Scope}
    {captures : CaptureNames}
    (hBase : NoComment base)
    (hCaptures : ∀ c ∈ captures, Scope.isUnder c.2 comment = false)
    (hColoured : Captures.Coloured base captures scopes) :
    NoComment scopes := by
  intro s hScope
  rcases hColoured.base_or_name s hScope with hIn | ⟨c, hC, rfl⟩
  · exact hBase s hIn
  · exact hCaptures c hC

/- The same for scopes that have one of a comment. -/
theorem oneComment_of_coloured
    {base scopes : List Scope}
    {captures : CaptureNames}
    {scope : Scope}
    (hBase : OneComment scope base)
    (hCaptures : ∀ c ∈ captures, Scope.isUnder c.2 comment = false)
    (hColoured : Captures.Coloured base captures scopes) :
    OneComment scope scopes where
  mem := hColoured.mem_of_base scope hBase.mem
  under := hBase.under
  eq_of_under := by
    intro s hScope hUnder
    rcases hColoured.base_or_name s hScope with hIn | ⟨c, hC, rfl⟩
    · exact hBase.eq_of_under s hIn hUnder
    · rw [hCaptures c hC] at hUnder
      cases hUnder

/- Neither begin marks nor end marks are among plain scopes. -/
theorem marks_of_isPlain
    {base : List Scope}
    (hPlain : ∀ s ∈ base, s.isPlain = true) :
    begins base = false ∧ ends base = false := by
  constructor
  all_goals
    rw [← Bool.not_eq_true]
    intro hAny
    rcases List.any_eq_true.mp hAny with ⟨s, hScope, hUnder⟩
    have hThis := hPlain s hScope
    simp [isPlain, hUnder] at hThis

end Scope

open Scope (NoComment OneComment)

------------------------------------------------------------
-- Neat Grammars
------------------------------------------------------------

/-
  All of the begin of a block comment is a begin mark, and all of
  its end is an end mark.
-/
structure Rule.Marks
    (engine : Engine)
    (opening : Option Pattern)
    (captures : CaptureNames)
    (endSource : Bytes)
    (ending : Ending)
    (endCaptures : CaptureNames) : Prop where
  opens : ∀ p ∈ opening, p.root.opens = true
  begins :
    ∃ number name,
      captures = [(number, name)] ∧
        Scope.isUnder name Scope.openMark = true ∧
          Scope.isUnder name Scope.closeMark = false ∧
            ∀ p ∈ opening, p.isCoveredBy number = true
  ends :
    ∃ number name,
      endCaptures = [(number, name)] ∧
        name ≠ [] ∧
          Scope.isUnder name Scope.openMark = false ∧
            ∀ p ∈ opening,
              ∀ {line : Array UInt8} {column : Nat} {m : Match}
                {q : Pattern} {source : Bytes},
                engine.search? p line column = some m →
                  LineState.endingFor engine line m endSource
                        ending =
                      (some q, source) →
                    q.isCoveredBy number = true

/-
  The rule is of one of five kinds: it colours nothing by itself,
  it is none of comments, or it is one of line comments or of
  block comments.
-/
inductive Rule.Neat
    (engine : Engine)
    (marked : Bool)
    (rule : Rule) : Prop where
| container
    (hBody : rule.body = .container)
| single
    {pattern : Option Pattern}
    {captures : CaptureNames}
    (hBody : rule.body = .single pattern captures)
    (hName : Scope.isPlain rule.name = true)
    (hCaptures : ∀ c ∈ captures, Scope.isUnder c.2 Scope.comment = false)
| line
    {pattern : Option Pattern}
    {captures : CaptureNames}
    (hBody : rule.body = .single pattern captures)
    (hName : Scope.isUnder rule.name Scope.comment = true)
    (hLine : Scope.isLineComment rule.name = true)
    (hCaptures : ∀ c ∈ captures, Scope.isUnder c.2 Scope.comment = false)
    (hOpens : ∀ p ∈ pattern, p.root.opens = true)
| region
    {opening : Option Pattern}
    {captures endCaptures : CaptureNames}
    {endSource : Bytes}
    {ending : Ending}
    {endLast : Bool}
    (hBody :
      rule.body =
        .region opening captures endSource ending endCaptures endLast)
    (hName : Scope.isPlain rule.name = true)
    (hContent : Scope.isPlain rule.contentName = true)
    (hCaptures : ∀ c ∈ captures, Scope.isUnder c.2 Scope.comment = false)
    (hEndCaptures :
      ∀ c ∈ endCaptures, Scope.isUnder c.2 Scope.comment = false)
| block
    {opening : Option Pattern}
    {captures endCaptures : CaptureNames}
    {endSource : Bytes}
    {ending : Ending}
    {endLast : Bool}
    (hBody :
      rule.body =
        .region opening captures endSource ending endCaptures endLast)
    (hName : Scope.isBlock rule.name = true)
    (hContent : rule.contentName = [])
    (hCandidates : rule.candidates = [])
    (hCaptures : ∀ c ∈ captures, Scope.isUnder c.2 Scope.comment = false)
    (hEndCaptures :
      ∀ c ∈ endCaptures, Scope.isUnder c.2 Scope.comment = false)
    (hMarks :
      marked = true →
        Rule.Marks engine opening captures endSource ending
          endCaptures)

/-
  All rules are neat, and the grammar itself is none of comments.
  Its engine finds what is written in its patterns.
-/
structure Grammar.Neat (marked : Bool) (grammar : Grammar) : Prop where
  finds : grammar.engine.toEngine.FindsAsWritten
  scopeName : Scope.isPlain grammar.scopeName = true
  rules :
    ∀ id : RuleId,
      (grammar.rule id).Neat grammar.engine.toEngine marked

/- The names of the groups of an end are those of no comment. -/
theorem Rule.endCaptures_of_neat
    {engine : Engine}
    {marked : Bool}
    {rule : Rule}
    (hNeat : rule.Neat engine marked) :
    ∀ c ∈ rule.endCaptures, Scope.isUnder c.2 Scope.comment = false := by
  unfold Rule.endCaptures
  cases hNeat with
  | container hBody => simp [hBody]
  | single hBody hName hCaptures => simp [hBody]
  | line hBody hName hLine hCaptures hOpens => simp [hBody]
  | region hBody hName hContent hCaptures hEndCaptures =>
      rw [hBody]
      exact hEndCaptures
  | block hBody hName hContent hCandidates hCaptures hEndCaptures
      hMarks =>
      rw [hBody]
      exact hEndCaptures

------------------------------------------------------------
-- Frames
------------------------------------------------------------

/- The frame is one outside comments. -/
structure Frame.Plain (frame : Frame) : Prop where
  nameScopes : ∀ s ∈ frame.nameScopes, s.isPlain = true
  contentScopes : ∀ s ∈ frame.contentScopes, s.isPlain = true

/-
  The frame is one of a block comment.  If comments are marked,
  all of its end is an end mark.
-/
structure Frame.OfComment
    (marked : Bool)
    (grammar : Grammar)
    (scope : Scope)
    (frame : Frame) : Prop where
  isBlock : scope.isBlock = true
  exists_base :
    ∃ base,
      (∀ s ∈ base, s.isPlain = true) ∧
        frame.nameScopes = base ++ [scope] ∧
          frame.contentScopes = base ++ [scope]
  candidates : (grammar.rule frame.ruleId).candidates = []
  covered :
    marked = true →
      ∃ number name,
        (grammar.rule frame.ruleId).endCaptures = [(number, name)] ∧
          name ≠ [] ∧
            Scope.isUnder name Scope.openMark = false ∧
              ∀ p ∈ frame.ending, p.isCoveredBy number = true

/-
  Only the innermost frame is one of a comment, and it is not the
  outermost one.
-/
def RuleStack.Neat
    (marked : Bool)
    (grammar : Grammar)
    (stack : RuleStack) : Prop :=
  match stack.frames with
  | [] => True
  | top :: below =>
      (top.Plain ∨
          (below ≠ [] ∧
            ∃ scope, top.OfComment marked grammar scope)) ∧
        ∀ frame ∈ below, frame.Plain

/- A frame outside comments is none of a comment. -/
theorem Frame.not_ofComment_of_plain
    {marked : Bool}
    {grammar : Grammar}
    {frame : Frame}
    (hPlain : frame.Plain)
    (scope : Scope) :
    ¬frame.OfComment marked grammar scope := by
  intro hComment
  rcases hComment.exists_base with ⟨base, _, _, hContent⟩
  have hScope :=
    hPlain.contentScopes scope (by rw [hContent]; simp)
  have hBlock := hComment.isBlock
  simp only [Scope.isPlain, Scope.isBlock, Bool.and_eq_true,
    Bool.not_eq_true'] at hScope hBlock
  rw [hScope.1.1] at hBlock
  cases hBlock.1.1.1

------------------------------------------------------------
-- Links Between Tokens
------------------------------------------------------------

/-
  What links a token to the one before it.  It belongs to one
  comment at most; unless the one before it belongs to the same
  line comment, it starts with a character.

  If block comments are marked, the same holds of them, and begin
  marks always start with a character.  A token that comes after
  an end mark of its comment is a begin mark.
-/
structure CommentLink
    (marked : Bool)
    (line : Bytes)
    (older? : Option (List Scope))
    (start : Nat)
    (scopes : List Scope) : Prop where
  eq_of_under :
    ∀ s ∈ scopes,
      ∀ t ∈ scopes,
        s.isUnder Scope.comment = true →
          t.isUnder Scope.comment = true → s = t
  line_starts :
    ∀ s ∈ scopes,
      s.isUnder Scope.comment = true →
        s.isLineComment = true →
          Utf16.Sharp line start ∨ ∃ older ∈ older?, s ∈ older
  block_starts :
    marked = true →
      ∀ s ∈ scopes,
        s.isUnder Scope.comment = true →
          s.isLineComment = false →
            Utf16.Sharp line start ∨
              (Scope.begins scopes = false ∧
                ∃ older ∈ older?, s ∈ older)
  parted :
    marked = true →
      ∀ s ∈ scopes,
        s.isUnder Scope.comment = true →
          s.isLineComment = false →
            ∀ older ∈ older?,
              s ∈ older →
                Scope.ends older = true → Scope.begins scopes = true

namespace CommentLink

variable {marked : Bool}
variable {line : Bytes}
variable {older? : Option (List Scope)}
variable {start : Nat}
variable {scopes : List Scope}
variable {scope : Scope}

/- A token outside comments is linked to anything. -/
theorem of_noComment
    (hNone : NoComment scopes) :
    CommentLink marked line older? start scopes where
  eq_of_under := by
    intro s hS _ _ hUnder
    rw [hNone s hS] at hUnder
    cases hUnder
  line_starts := by
    intro s hS hUnder
    rw [hNone s hS] at hUnder
    cases hUnder
  block_starts := by
    intro _ s hS hUnder
    rw [hNone s hS] at hUnder
    cases hUnder
  parted := by
    intro _ s hS hUnder
    rw [hNone s hS] at hUnder
    cases hUnder

/- A token of one comment is linked if that comment is. -/
theorem of_oneComment
    (hOne : OneComment scope scopes)
    (hLine :
      scope.isLineComment = true →
        Utf16.Sharp line start ∨ ∃ older ∈ older?, scope ∈ older)
    (hBlock :
      marked = true →
        scope.isLineComment = false →
          Utf16.Sharp line start ∨
            (Scope.begins scopes = false ∧
              ∃ older ∈ older?, scope ∈ older))
    (hParted :
      marked = true →
        scope.isLineComment = false →
          ∀ older ∈ older?,
            scope ∈ older →
              Scope.ends older = true → Scope.begins scopes = true) :
    CommentLink marked line older? start scopes where
  eq_of_under := by
    intro s hS t hT hUnderS hUnderT
    rw [hOne.eq_of_under s hS hUnderS, hOne.eq_of_under t hT hUnderT]
  line_starts := by
    intro s hS hUnder
    rw [hOne.eq_of_under s hS hUnder]
    exact hLine
  block_starts := by
    intro hMarked s hS hUnder
    rw [hOne.eq_of_under s hS hUnder]
    exact hBlock hMarked
  parted := by
    intro hMarked s hS hUnder
    rw [hOne.eq_of_under s hS hUnder]
    exact hParted hMarked

end CommentLink

end Marginalia

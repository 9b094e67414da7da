import Marginalia.Token.Step

/-
  This file cuts whole lines into tokens, from the stack of the
  line before.

  Steps are taken until the line is done.  Whether that ever
  happens depends on the stack: a region that is open, has an
  end and has no region around it can never be closed.  No line
  leaves such a stack behind, so the lines of a document all
  come to an end.

  Key definitions include:
    * `LineTokens`
    * `LineState.start`, `LineState.run?`
    * `defaultMaxLength`
    * `tokenizeLine?`, `tokenizeLine`
-/

namespace Marginalia

/- The tokens of a line, and the stack for the next line. -/
structure LineTokens where
  tokens : List Token
  stack : RuleStack
deriving Repr, Inhabited

------------------------------------------------------------
-- Running to the End of a Line
------------------------------------------------------------

namespace LineState

/-
  The state at the start of a line.  An empty stack stands for
  the start of a document.
-/
def start (grammar : Grammar) (prior : RuleStack) : LineState :=
  let (top, below) := match prior.frames with
    | [] => (Frame.root grammar, [])
    | top :: below => (top, below)
  { column := 0
    top := top
    below := below
    opened := []
    tokens := [] }

/-
  Take steps until the line is done.  There is no result if that
  never happens.
-/
def run?
    (engine : Engine)
    (grammar : Grammar)
    (line : Array UInt8)
    (state : LineState) : Option LineState :=
  match state.step engine grammar line with
  | .next next => next |>.run? engine grammar line
  | .done last => some last
partial_fixpoint

/- What a line that is done has come to. -/
def result (last : LineState) : LineTokens :=
  ⟨last.tokens.reverse, last.stack⟩

end LineState

------------------------------------------------------------
-- Lines
------------------------------------------------------------

/- The length beyond which a line is not cut, unless told otherwise. -/
def defaultMaxLength : Nat :=
  20000

/-
  Cut a line into tokens with an engine.  A line longer than a
  limit other than zero is one token of the innermost region.
-/
def tokenizeLine?
    (engine : Engine)
    (grammar : Grammar)
    (line : Bytes)
    (prior : RuleStack)
    (maxLength : Nat) : Option LineTokens :=
  let state := LineState.start grammar prior
  if 0 < maxLength ∧ maxLength < line.length then
    some (state.fill 0 line.length).result
  else
    (state.run? engine grammar line.toArray).map LineState.result

/-
  Cut a line into tokens with the engine of the grammar.  A line
  that never comes to an end has no tokens.
-/
def tokenizeLine
    (grammar : Grammar)
    (line : Bytes)
    (prior : RuleStack)
    (maxLength : Nat) : LineTokens :=
  (tokenizeLine? grammar.engine.toEngine grammar line prior
    maxLength).getD ⟨[], prior⟩

end Marginalia

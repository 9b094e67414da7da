import Marginalia.Grammar.Rule
import Marginalia.Token.Basic

/-
  This file defines the stacks of open regions that are handed
  from line to line.

  Key definitions include:
    * `Frame`
    * `RuleStack`
    * `RuleStack.initial`, `RuleStack.push`, `RuleStack.pop`
    * `RuleStack.agrees`
-/

namespace Marginalia

/-
  An open region: its rule, the end that closes it with the
  source of that end, the scopes of its two ends, the scopes of
  what is between them, and how many regions are open with it.
-/
structure Frame where
  ruleId : RuleId
  ending : Option Pattern
  endSource : Bytes
  nameScopes : List Scope
  contentScopes : List Scope
  depth : Nat
deriving Repr, Inhabited

namespace Frame

/- The frame of a whole document. -/
def root (grammar : Grammar) : Frame :=
  { ruleId := Grammar.rootId
    ending := none
    endSource := []
    nameScopes := [grammar.scopeName]
    contentScopes := [grammar.scopeName]
    depth := 1 }

/-
  Two frames agree if they are of one rule, end alike and colour
  alike what is between their ends.
-/
def agrees (a b : Frame) : Bool :=
  a.ruleId == b.ruleId && a.endSource == b.endSource &&
    a.contentScopes == b.contentScopes

end Frame

/- The open regions, the innermost first. -/
structure RuleStack where
  frames : List Frame
deriving Repr, Inhabited

namespace RuleStack

/- The stack before anything is known. -/
def empty : RuleStack :=
  ⟨[]⟩

/- The stack at the start of a document. -/
def initial (grammar : Grammar) : RuleStack :=
  ⟨[Frame.root grammar]⟩

/- Nothing is known. -/
def isEmpty (stack : RuleStack) : Bool :=
  stack.frames.isEmpty

/- The number of open regions, as the innermost one has it. -/
def depth (stack : RuleStack) : Nat :=
  match stack.frames with
  | [] => 0
  | top :: _ => top.depth

/- Open a region, which counts itself and those around it. -/
def push
    (stack : RuleStack)
    (ruleId : RuleId)
    (ending : Option Pattern)
    (endSource : Bytes)
    (nameScopes contentScopes : List Scope) : RuleStack :=
  ⟨{ ruleId := ruleId
     ending := ending
     endSource := endSource
     nameScopes := nameScopes
     contentScopes := contentScopes
     depth := stack.depth + 1 } :: stack.frames⟩

/- Close the innermost region; the outermost one stays open. -/
def pop (stack : RuleStack) : RuleStack :=
  match stack.frames with
  | _ :: below :: frames => ⟨below :: frames⟩
  | frames => ⟨frames⟩

/- Some frames agree one by one with others. -/
def framesAgree : List Frame → List Frame → Bool
| [], [] => true
| a :: as, b :: bs => a.agrees b && framesAgree as bs
| _, _ => false

/- Two stacks agree if their frames do. -/
def agrees (a b : RuleStack) : Bool :=
  framesAgree a.frames b.frames

instance : BEq RuleStack where
  beq := agrees

end RuleStack

end Marginalia

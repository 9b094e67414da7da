import Marginalia.Document
import Marginalia.Token.Query

/-
  This file finds the comment that a position is about: the one
  at the position, or else the first one below it if nothing but
  blank lines comes before.

  Key definitions include:
    * `Nearness`, `CommentMatch`
    * `firstContent`
    * `CommentMatch.at?`
    * `CommentMatch.below`
    * `CommentMatch.locate`
-/

namespace Marginalia

/- Where a comment was found: at the position, or below it. -/
inductive Nearness where
| exact
| below
deriving DecidableEq, Repr

/- A token that belongs to a comment, with its comment scope. -/
structure CommentMatch where
  line : Nat
  tokenIndex : Nat
  scope : Scope
  nearness : Nearness
deriving DecidableEq, Repr

/-
  The index of the first token that covers more than white
  space; without one, it is the number of tokens.
-/
def firstContent (text : Bytes) (tokens : List Token) : Nat :=
  tokens.findIdx (fun token => !token.isWhite text)

namespace CommentMatch

/-
  The index of the token that covers a column.  The end of a
  line that is not empty belongs to its last token.
-/
def indexAt?
    (text : Bytes)
    (tokens : List Token)
    (column : Nat) : Option Nat :=
  match
    tokens.findIdx?
      (fun t => decide (t.start ≤ column) && decide (column < t.stop))
  with
  | some index => some index
  | none =>
      if tokens.isEmpty || text.isEmpty || column != text.length then none
      else some (tokens.length - 1)

/- The match of a token, if the token is a comment. -/
def ofToken?
    (line : Nat)
    (tokens : List Token)
    (index : Nat)
    (nearness : Nearness) : Option CommentMatch :=
  match tokens[index]? with
  | none => none
  | some token =>
      token.commentScope?.map (fun scope => ⟨line, index, scope, nearness⟩)

/- The comment at a column of a line. -/
def at?
    (text : Bytes)
    (line : Nat)
    (tokens : List Token)
    (column : Nat) : Option CommentMatch :=
  match indexAt? text tokens column with
  | none => none
  | some index => ofToken? line tokens index .exact

/-
  The comment that `remaining` lines begin with, blank lines
  apart.
-/
def below (lines : Array Bytes) :
    Nat → Nat → TokenQuery (Option CommentMatch)
| 0, _ => pure none
| remaining + 1, line => do
    let text := lines.getD line []
    if text.isBlankLine then
      below lines remaining (line + 1)
    else
      let tokens ← TokenQuery.tokensOf line
      let index := firstContent text tokens
      if index = tokens.length then
        below lines remaining (line + 1)
      else
        pure (ofToken? line tokens index .below)

/- The comment that a position is about. -/
def locate
    (lines : Array Bytes)
    (position : Position) : TokenQuery (Option CommentMatch) := do
  if position.line < 0 ∨ (lines.size : Int) ≤ position.line then
    pure none
  else
    let line := position.line.toNat
    let text := lines.getD line []
    let column := Utf16.toByteColumn text position.character
    let tokens ← TokenQuery.tokensOf line
    match at? text line tokens column with
    | some found => pure (some found)
    | none => below lines (lines.size - (line + 1)) (line + 1)

end CommentMatch

end Marginalia

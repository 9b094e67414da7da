import Marginalia.Text.Bytes

/-
  This file defines tokens, the coloured parts of a line, and
  what their scopes say about them.

  Key definitions include:
    * `Scope`, `Scope.isUnder`
    * `Token`
    * `Token.carries`, `Token.carriesUnder`
    * `Token.commentScope?`
    * `Token.isWhite`
    * `Tokens.push`
-/

namespace Marginalia

------------------------------------------------------------
-- Scopes
------------------------------------------------------------

/- A scope: words with dots between them, the most general one first. -/
abbrev Scope :=
  Bytes

namespace Scope

/- The scope is `general`, or refines it by further words. -/
def isUnder (scope general : Scope) : Bool :=
  general.isPrefixOf scope &&
    (match scope.drop general.length with
      | [] => true
      | b :: _ => b == Ascii.dot)

/- The scope of all comments. -/
def comment : Scope :=
  utf8 "comment"

/- The scope of comments that have an end mark. -/
def blockComment : Scope :=
  utf8 "comment.block"

/- The scope of the marks that belong to a comment. -/
def mark : Scope :=
  utf8 "punctuation.definition.comment"

/- The scope of the marks that open a comment. -/
def openMark : Scope :=
  utf8 "punctuation.definition.comment.begin"

/- The scope of the marks that close a comment. -/
def closeMark : Scope :=
  utf8 "punctuation.definition.comment.end"

/- A comment that ends with its line: any but a block comment. -/
def isLineComment (scope : Scope) : Bool :=
  !scope.isUnder blockComment

end Scope

------------------------------------------------------------
-- Tokens
------------------------------------------------------------

/-
  A part of a line, from byte column `start` up to `stop`, with
  its scopes from the outermost to the innermost.
-/
structure Token where
  start : Nat
  stop : Nat
  scopes : List Scope
deriving DecidableEq, Repr, Inhabited

namespace Token

/- The token has just this scope. -/
def carries (token : Token) (scope : Scope) : Bool :=
  token.scopes.contains scope

/- The token has a scope under `general`. -/
def carriesUnder (token : Token) (general : Scope) : Bool :=
  token.scopes.any (fun scope => scope.isUnder general)

/- The innermost comment scope of a token. -/
def commentScope? (token : Token) : Option Scope :=
  token.scopes.reverse.find? (fun scope => scope.isUnder Scope.comment)

/- The token is a mark of a comment. -/
def isMark (token : Token) : Bool :=
  token.carriesUnder Scope.mark

/- The token is a mark that opens a comment. -/
def isOpenMark (token : Token) : Bool :=
  token.carriesUnder Scope.openMark

/- The token is a mark that closes a comment. -/
def isCloseMark (token : Token) : Bool :=
  token.carriesUnder Scope.closeMark

/- The token covers nothing but white space of the line. -/
def isWhite (token : Token) (line : Bytes) : Bool :=
  (line.slice token.start token.stop).all Ascii.isSpace

end Token

------------------------------------------------------------
-- Growing a Line of Tokens
------------------------------------------------------------

namespace Tokens

/-
  Add a part of the line to the tokens before it, which are in
  reverse.  An empty part is left out, and a part that continues
  a token with the same scopes lengthens that token.
-/
def push
    (tokens : List Token)
    (start stop : Nat)
    (scopes : List Scope) : List Token :=
  if stop ≤ start then tokens
  else
    match tokens with
    | [] => [⟨start, stop, scopes⟩]
    | last :: before =>
        if last.stop = start ∧ last.scopes = scopes then
          { last with stop := stop } :: before
        else ⟨start, stop, scopes⟩ :: last :: before

end Tokens

end Marginalia

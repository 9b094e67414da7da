import Marginalia.Comment.Locate

/-
  This file finds how far a comment reaches.  A block comment
  reaches from its open mark to its close mark, over any number
  of lines.  A line comment is a run of tokens in its line, and
  may be merged with the lines around it that hold nothing but
  such comments.

  Key definitions include:
    * `CommentSpan`
    * `Indentation`
    * `CommentSpan.walk`
    * `CommentSpan.ofBlock`
    * `LineRun`, `LineRun.around`, `LineRun.only`
    * `CommentSpan.ofLine`
    * `CommentSpan.ofMatch`
-/

namespace Marginalia

/- A part of a document in byte columns; the end is not included. -/
structure CommentSpan where
  startLine : Nat
  startColumn : Nat
  stopLine : Nat
  stopColumn : Nat
deriving DecidableEq, Repr, Inhabited

/- Whether lines have to be indented alike to be merged. -/
inductive Indentation where
| ignore
| strict
deriving DecidableEq, Repr

namespace Indentation

/- The policy of a name, or a default for other names. -/
def ofText (text : Bytes) (fallback : Indentation) : Indentation :=
  if text = utf8 "ignore" then .ignore
  else if text = utf8 "strict" then .strict
  else fallback

/- The name of a policy. -/
def toText : Indentation → Bytes
| .ignore => utf8 "ignore"
| .strict => utf8 "strict"

end Indentation

namespace CommentSpan

------------------------------------------------------------
-- Block Comments
------------------------------------------------------------

/-
  Walk along tokens while they carry the scope, up to one at
  which to stop.  The result is the last token of the walk, and
  whether the walk may go on in another line.
-/
def walk
    (scope : Scope)
    (stops : Token → Bool)
    (current : Token) : List Token → Token × Bool
| [] => (current, !stops current)
| next :: rest =>
    if !stops current && next.carries scope then
      walk scope stops next rest
    else (current, false)

/-
  Walk up through the lines before a line.  The line and the
  start column reached so far are given.
-/
def walkUp
    (scope : Scope) :
    Nat → Nat × Nat → TokenQuery (Nat × Nat)
| 0, reached => pure reached
| line + 1, reached => do
    match (← TokenQuery.tokensOf line).reverse with
    | [] => walkUp scope line reached
    | token :: before =>
        if token.carries scope then
          let (first, goesOn) := walk scope Token.isOpenMark token before
          if goesOn then walkUp scope line (line, first.start)
          else pure (line, first.start)
        else pure reached

/-
  Walk down through the next `remaining` lines.  The line and
  the stop column reached so far are given.
-/
def walkDown
    (scope : Scope) :
    Nat → Nat → Nat × Nat → TokenQuery (Nat × Nat)
| 0, _, reached => pure reached
| remaining + 1, line, reached => do
    match ← TokenQuery.tokensOf line with
    | [] => walkDown scope remaining (line + 1) reached
    | token :: after =>
        if token.carries scope then
          let (last, goesOn) := walk scope Token.isCloseMark token after
          if goesOn then
            walkDown scope remaining (line + 1) (line, last.stop)
          else pure (line, last.stop)
        else pure reached

/- The block comment around a token. -/
def ofBlock
    (lineCount : Nat)
    (found : CommentMatch) : TokenQuery CommentSpan := do
  let line := found.line
  let tokens ← TokenQuery.tokensOf line
  let token := tokens.getD found.tokenIndex default
  let (first, goesUp) :=
    walk found.scope Token.isOpenMark token
      (tokens.take found.tokenIndex).reverse
  let start ←
    if goesUp then walkUp found.scope line (line, first.start)
    else pure (line, first.start)
  let (last, goesDown) :=
    walk found.scope Token.isCloseMark token
      (tokens.drop (found.tokenIndex + 1))
  let stop ←
    if goesDown then
      walkDown found.scope (lineCount - (line + 1)) (line + 1)
        (line, last.stop)
    else pure (line, last.stop)
  pure ⟨start.1, start.2, stop.1, stop.2⟩

end CommentSpan

------------------------------------------------------------
-- Runs of Tokens in a Line
------------------------------------------------------------

/- A run of tokens of a line, from index `first` to index `last`. -/
structure LineRun where
  first : Nat
  last : Nat
deriving DecidableEq, Repr, Inhabited

namespace LineRun

/- The tokens with the scope that stand around a token without a gap. -/
def around
    (tokens : List Token)
    (index : Nat)
    (scope : Scope) : LineRun :=
  let carries := fun (t : Token) => t.carries scope
  ⟨index - ((tokens.take index).reverse.takeWhile carries).length,
    index + ((tokens.drop (index + 1)).takeWhile carries).length⟩

/- The column where the run starts. -/
def startColumn (run : LineRun) (tokens : List Token) : Nat :=
  (tokens.getD run.first default).start

/- The column where the run stops. -/
def stopColumn (run : LineRun) (tokens : List Token) : Nat :=
  (tokens.getD run.last default).stop

/-
  The comment of a line that holds nothing else: the run of its
  first content, if that has the scope and only white space
  comes after the run.
-/
def only?
    (text : Bytes)
    (tokens : List Token)
    (scope : Scope) : Option LineRun :=
  let index := firstContent text tokens
  match tokens[index]? with
  | none => none
  | some token =>
      if token.carries scope then
        let run := around tokens index scope
        if (tokens.drop (run.last + 1)).all (fun t => t.isWhite text) then
          some run
        else none
      else none

/- The comment of a line that holds nothing else, with its tokens. -/
def onlyIn
    (lines : Array Bytes)
    (scope : Scope)
    (line : Nat) : TokenQuery (Option (LineRun × List Token)) := do
  let text := lines.getD line []
  if text.isBlankLine then pure none
  else
    let tokens ← TokenQuery.tokensOf line
    pure ((only? text tokens scope).map (fun run => (run, tokens)))

end LineRun

------------------------------------------------------------
-- Line Comments
------------------------------------------------------------

namespace CommentSpan

/- The spaces and tabs that a line begins with. -/
def indent (text : Bytes) : Bytes :=
  text.takeWhile (fun b => b == Ascii.space || b == Ascii.tab)

/- Two lines may be merged under a policy. -/
def compatible (policy : Indentation) (a b : Bytes) : Bool :=
  match policy with
  | .ignore => true
  | .strict => indent a == indent b

/- Merge the lines before a line, from the nearest one on. -/
def mergeUp
    (lines : Array Bytes)
    (scope : Scope)
    (policy : Indentation)
    (text : Bytes) :
    Nat → Nat × Nat → TokenQuery (Nat × Nat)
| 0, reached => pure reached
| line + 1, reached => do
    match ← LineRun.onlyIn lines scope line with
    | none => pure reached
    | some (run, tokens) =>
        if compatible policy (lines.getD line []) text then
          mergeUp lines scope policy text line
            (line, run.startColumn tokens)
        else pure reached

/- Merge the next `remaining` lines, from the nearest one on. -/
def mergeDown
    (lines : Array Bytes)
    (scope : Scope)
    (policy : Indentation)
    (text : Bytes) :
    Nat → Nat → Nat × Nat → TokenQuery (Nat × Nat)
| 0, _, reached => pure reached
| remaining + 1, line, reached => do
    match ← LineRun.onlyIn lines scope line with
    | none => pure reached
    | some (run, tokens) =>
        if compatible policy (lines.getD line []) text then
          mergeDown lines scope policy text remaining (line + 1)
            (line, run.stopColumn tokens)
        else pure reached

/-
  The line comment around a token.  With a policy it is merged
  with the lines around it, unless other text stands in its own
  line.
-/
def ofLine
    (lines : Array Bytes)
    (found : CommentMatch)
    (policy? : Option Indentation) : TokenQuery CommentSpan := do
  let line := found.line
  let tokens ← TokenQuery.tokensOf line
  let run := LineRun.around tokens found.tokenIndex found.scope
  let start := (line, run.startColumn tokens)
  let stop := (line, run.stopColumn tokens)
  match policy? with
  | none => pure ⟨start.1, start.2, stop.1, stop.2⟩
  | some policy => do
      let own ← LineRun.onlyIn lines found.scope line
      if own.any (fun o => o.1.first == run.first) then
        let text := lines.getD line []
        let start ← mergeUp lines found.scope policy text line start
        let stop ←
          mergeDown lines found.scope policy text
            (lines.size - (line + 1)) (line + 1) stop
        pure ⟨start.1, start.2, stop.1, stop.2⟩
      else pure ⟨start.1, start.2, stop.1, stop.2⟩

/- The whole comment that a token belongs to. -/
def ofMatch
    (lines : Array Bytes)
    (found : CommentMatch)
    (policy? : Option Indentation) : TokenQuery CommentSpan :=
  if found.scope.isLineComment then ofLine lines found policy?
  else ofBlock lines.size found

end CommentSpan

end Marginalia

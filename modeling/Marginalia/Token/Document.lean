import Marginalia.Document
import Marginalia.Token.Line
import Marginalia.Token.Query

/-
  This file defines tokenized documents.  Lines are tokenized
  from the first one on, each from the stack of the line before
  it, and no further than they were asked for.

  Key definitions include:
    * `TokenizeError`
    * `TokenizedDocument`
    * `TokenizedDocument.create`
    * `TokenizedDocument.extend`
    * `TokenizedDocument.lineTokens`
    * `TokenizedDocument.answer`
-/

namespace Marginalia

------------------------------------------------------------
-- Errors
------------------------------------------------------------

/- Why a document or one of its lines cannot be tokenized. -/
inductive TokenizeError where
| noGrammar
| noSuchLine
deriving DecidableEq, Repr

namespace TokenizeError

/- The wording of an error. -/
def message : TokenizeError → String
| noGrammar => "TokenizedDocument requires a grammar"
| noSuchLine => "line out of range"

end TokenizeError

------------------------------------------------------------
-- Tokenized Documents
------------------------------------------------------------

/-
  The lines of one version of a document, and the tokens of as
  many of them as were asked for.
-/
structure TokenizedDocument where
  grammar : Grammar
  uri : Bytes
  languageId : Bytes
  version : Int
  lines : Array Bytes
  maxLength : Nat
  tokenized : Array LineTokens
deriving Inhabited

namespace TokenizedDocument

/- A document of which no line is tokenized yet. -/
def create
    (grammar : Grammar)
    (document : Document)
    (maxLength : Nat) : TokenizedDocument :=
  { grammar := grammar
    uri := document.uri
    languageId := document.languageId
    version := document.version
    lines := document.lines.toArray
    maxLength := maxLength
    tokenized := #[] }

/- The same, where there may be no grammar. -/
def create?
    (grammar? : Option Grammar)
    (document : Document)
    (maxLength : Nat) : Except TokenizeError TokenizedDocument :=
  match grammar? with
  | none => .error .noGrammar
  | some grammar => .ok (create grammar document maxLength)

/- The number of lines. -/
def lineCount (d : TokenizedDocument) : Nat :=
  d.lines.size

/- The text of a line; past the last one it is empty. -/
def lineText (d : TokenizedDocument) (line : Nat) : Bytes :=
  d.lines.getD line []

/- The number of lines tokenized so far. -/
def tokenizedCount (d : TokenizedDocument) : Nat :=
  d.tokenized.size

/- The stack before the first line that is not tokenized. -/
def nextStack (d : TokenizedDocument) : RuleStack :=
  match d.tokenized.back? with
  | none => RuleStack.empty
  | some line => line.stack

/- Tokenize `n` more lines, as long as there are any. -/
def extend (d : TokenizedDocument) : Nat → TokenizedDocument
| 0 => d
| n + 1 =>
    match d.lines[d.tokenized.size]? with
    | none => d
    | some text =>
        let line :=
          tokenizeLine d.grammar text d.nextStack d.maxLength
        extend { d with tokenized := d.tokenized.push line } n

/- Tokenize up to a line. -/
def reach (d : TokenizedDocument) (line : Nat) : TokenizedDocument :=
  d.extend (line + 1 - d.tokenized.size)

/- The tokens of a line, and the document with that line tokenized. -/
def lineTokens
    (d : TokenizedDocument)
    (line : Nat) :
    Except TokenizeError LineTokens × TokenizedDocument :=
  if line < d.lineCount then
    let d := d.reach line
    match d.tokenized[line]? with
    | some tokens => (.ok tokens, d)
    | none => (.error .noSuchLine, d)
  else (.error .noSuchLine, d)

/-
  The answer to a question, and the document with the lines
  tokenized that it asked for.  A line that does not exist has
  no tokens.
-/
def answer
    {α : Type} :
    TokenQuery α → TokenizedDocument → α × TokenizedDocument
| .answer value, d => (value, d)
| .ask line next, d =>
    match d.lineTokens line with
    | (.ok result, d) => answer (next result.tokens) d
    | (.error _, d) => answer (next []) d

end TokenizedDocument

end Marginalia

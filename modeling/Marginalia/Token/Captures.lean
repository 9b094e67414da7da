import Marginalia.Grammar.Rule
import Marginalia.Pattern.Search
import Marginalia.Token.Basic

/-
  This file colours a match by the groups that a rule names.
  The match is cut at the ends of the named groups, and each
  piece gets the names of the groups that hold it.

  Key definitions include:
    * `NamedSpan`, `NamedSpan.precedes`
    * `Captures.spans`
    * `Captures.cuts`
    * `Captures.emit`
-/

namespace Marginalia

/- A part of the line that a named group matched. -/
structure NamedSpan where
  start : Nat
  stop : Nat
  number : Nat
  name : Scope
deriving DecidableEq, Repr, Inhabited

namespace NamedSpan

/-
  The order of names in a scope list: a span that starts earlier
  comes first, of two that start together the longer one, and of
  two equal ones that of the lower number.
-/
def precedes (a b : NamedSpan) : Bool :=
  if a.start ≠ b.start then a.start < b.start
  else if a.stop ≠ b.stop then b.stop < a.stop
  else a.number < b.number

/- Put a span in its place. -/
def insert (span : NamedSpan) : List NamedSpan → List NamedSpan
| [] => [span]
| s :: rest =>
    if span.precedes s then span :: s :: rest
    else s :: insert span rest

/- The piece from `a` up to `b` lies in the span. -/
def holds (span : NamedSpan) (a b : Nat) : Bool :=
  span.start ≤ a && b ≤ span.stop

end NamedSpan

namespace Captures

/- The span of a named group, if it took part, is not empty and has a name. -/
def span? (m : Match) (capture : Nat × Bytes) : Option NamedSpan :=
  match m.group? capture.1 with
  | none => none
  | some span =>
      if capture.2.isEmpty || span.stop ≤ span.start then none
      else some ⟨span.start, span.stop, capture.1, capture.2⟩

/- The spans of the named groups, in order. -/
def spans (m : Match) (captures : CaptureNames) : List NamedSpan :=
  (captures.filterMap (span? m)).foldr NamedSpan.insert []

/- Put a column in its place; a column is listed once. -/
def insertCut (column : Nat) : List Nat → List Nat
| [] => [column]
| c :: rest =>
    if column < c then column :: c :: rest
    else if column = c then c :: rest
    else c :: insertCut column rest

/- The columns where a match is cut, in order. -/
def cuts (m : Match) (spans : List NamedSpan) : List Nat :=
  spans.foldr
    (fun span columns =>
      insertCut (max span.start m.start)
        (insertCut (min span.stop m.stop) columns))
    (insertCut m.start [m.stop])

/- The scopes of a piece of the match. -/
def scopesAt
    (base : List Scope)
    (spans : List NamedSpan)
    (a b : Nat) : List Scope :=
  base ++ (spans.filter (fun span => span.holds a b)).map NamedSpan.name

/- Add the pieces between neighbouring cuts that lie in the match. -/
def emitPieces
    (m : Match)
    (base : List Scope)
    (spans : List NamedSpan) : List Nat → List Token → List Token
| a :: b :: rest, tokens =>
    let tokens :=
      if a < m.start ∨ m.stop < b then tokens
      else Tokens.push tokens a b (scopesAt base spans a b)
    emitPieces m base spans (b :: rest) tokens
| _, tokens => tokens

/-
  Add a match to the tokens before it, which are in reverse.  An
  empty match adds nothing.
-/
def emit
    (m : Match)
    (base : List Scope)
    (captures : CaptureNames)
    (tokens : List Token) : List Token :=
  if m.stop ≤ m.start then tokens
  else
    let spans := spans m captures
    emitPieces m base spans (cuts m spans) tokens

end Captures

end Marginalia

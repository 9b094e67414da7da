import Marginalia.Pattern.Basic

/-
  This file searches a line for a pattern.  Alternatives and
  repetitions are tried in the order in which they are written,
  and the first way to match the rest of the pattern is taken.

  A node is matched at a point, and what follows it is a
  function of the point where it ends.

  Key definitions include:
    * `Span`
    * `Point`
    * `Node.match?`
    * `Match`
    * `Pattern.matchAt?`
    * `Pattern.searchFrom?`
-/

namespace Marginalia

------------------------------------------------------------
-- Points
------------------------------------------------------------

/- A part of a line, from `start` up to `stop`. -/
structure Span where
  start : Nat
  stop : Nat
deriving DecidableEq, Repr, Inhabited

/- The groups closed so far by their numbers, the latest one first. -/
abbrev Groups :=
  List (Nat × Span)

/- The latest span of a group. -/
def Groups.span? (groups : Groups) (number : Nat) : Option Span :=
  (groups.find? (fun g => g.1 == number)).map Prod.snd

/- How far a match has come. -/
structure Point where
  column : Nat
  groups : Groups
deriving DecidableEq, Repr, Inhabited

/- The line that is searched, and the column where the search began. -/
structure Subject where
  line : Array UInt8
  origin : Nat

namespace Subject

/- A word byte stands before the column. -/
def wordBefore (s : Subject) (column : Nat) : Bool :=
  match column with
  | 0 => false
  | c + 1 => (s.line[c]?).any Ascii.isWord

/- A word byte stands at the column. -/
def wordAt (s : Subject) (column : Nat) : Bool :=
  (s.line[column]?).any Ascii.isWord

/- The column is between a return and the line feed after it. -/
def splitsReturn (s : Subject) (column : Nat) : Bool :=
  match column with
  | 0 => false
  | c + 1 =>
      s.line[c]? == some Ascii.cr && s.line[column]? == some Ascii.lf

/- A line starts at the column: at the first, or behind a separator. -/
def startsLine (s : Subject) (column : Nat) : Bool :=
  match column with
  | 0 => true
  | c + 1 =>
      (s.line[c]?).any Ascii.isSeparator && !s.splitsReturn column

/- A line ends at the column: at the last, or before a separator. -/
def endsLine (s : Subject) (column : Nat) : Bool :=
  column == s.line.size ||
    ((s.line[column]?).any Ascii.isSeparator &&
      !s.splitsReturn column)

/- The condition of an anchor holds at the column. -/
def admits (s : Subject) (column : Nat) : Anchor → Bool
| .lineStart => s.startsLine column
| .lineEnd => s.endsLine column
| .wordEdge => s.wordBefore column != s.wordAt column
| .noWordEdge => s.wordBefore column == s.wordAt column
| .searchStart => column == s.origin

/-
  The length of the longest row of bytes of a set at the column,
  cut at `limit`.
-/
def rowLength (s : Subject) (set : ByteSet) : Nat → Nat → Nat
| _, 0 => 0
| column, limit + 1 =>
    match s.line[column]? with
    | none => 0
    | some b =>
        if set.contains b then s.rowLength set (column + 1) limit + 1
        else 0

/- The columns that remain, or fewer if there is an upper bound. -/
def room (s : Subject) (column : Nat) : Option Nat → Nat
| none => s.line.size - column
| some most => min most (s.line.size - column)

/- The `length` bytes at `there` stand again at `here`. -/
def repeats
    (s : Subject)
    (folded : Bool)
    (here there length : Nat) : Bool :=
  (List.range length).all (fun i =>
    match s.line[here + i]?, s.line[there + i]? with
    | some a, some b =>
        if folded then Ascii.toLower a == Ascii.toLower b else a == b
    | _, _ => false)

end Subject

------------------------------------------------------------
-- Matching
------------------------------------------------------------

/- What follows a node: the rest of the match from where it ends. -/
abbrev Follow :=
  Point → Option Point

namespace Node

/- The first of two attempts that succeeds. -/
def orElse (first : Option Point) (second : Unit → Option Point) :
    Option Point :=
  match first with
  | some r => some r
  | none => second ()

/- A body as often as required. -/
def times
    (body : Point → Follow → Option Point) :
    Nat → Point → Follow → Option Point
| 0, p, follow => follow p
| n + 1, p, follow => body p (fun q => times body n q follow)

/-
  A body up to `n` times, as often as possible first.  A body
  that did not move is not tried again.
-/
def mostFirst
    (body : Point → Follow → Option Point) :
    Nat → Point → Follow → Option Point
| 0, p, follow => follow p
| n + 1, p, follow =>
    orElse
      (body p (fun q =>
        if q.column = p.column then follow q
        else mostFirst body n q follow))
      (fun _ => follow p)

/-
  A body up to `n` times, as seldom as possible first.  A body
  that did not move is not tried again.
-/
def leastFirst
    (body : Point → Follow → Option Point) :
    Nat → Point → Follow → Option Point
| 0, p, follow => follow p
| n + 1, p, follow =>
    orElse (follow p)
      (fun _ =>
        body p (fun q =>
          if q.column = p.column then follow q
          else leastFirst body n q follow))

/- Between `least` and `least + n` bytes, the most first. -/
def longestFirst (least : Nat) : Nat → Point → Follow → Option Point
| 0, p, follow => follow { p with column := p.column + least }
| n + 1, p, follow =>
    orElse (follow { p with column := p.column + (least + (n + 1)) })
      (fun _ => longestFirst least n p follow)

/- Between `least` and `least + n` bytes, the fewest first. -/
def shortestFirst (least : Nat) : Nat → Point → Follow → Option Point
| 0, p, follow => follow { p with column := p.column + least }
| n + 1, p, follow =>
    orElse (follow { p with column := p.column + least })
      (fun _ => shortestFirst (least + 1) n p follow)

/- A row of bytes of one set. -/
def matchRow
    (s : Subject)
    (set : ByteSet)
    (least : Nat)
    (most : Option Nat)
    (greed : Greed)
    (p : Point)
    (follow : Follow) : Option Point :=
  let length := s.rowLength set p.column (s.room p.column most)
  if length < least then none
  else
    match greed with
    | .greedy => longestFirst least (length - least) p follow
    | .lazy => shortestFirst least (length - least) p follow

/-
  The optional part of a repetition.  Without an upper bound it
  ends because each round but the last moves the column.
-/
def optional
    (s : Subject)
    (body : Point → Follow → Option Point)
    (least : Nat)
    (most : Option Nat)
    (greed : Greed)
    (p : Point)
    (follow : Follow) : Option Point :=
  let rounds := match most with
    | none => s.line.size - p.column + 1
    | some m => m - least
  match greed with
  | .greedy => mostFirst body rounds p follow
  | .lazy => leastFirst body rounds p follow

/- Match a node at a point, and what follows after it. -/
def match? (s : Subject) : Node → Point → Follow → Option Point
| .empty, p, follow => follow p
| .byte set, p, follow =>
    match s.line[p.column]? with
    | none => none
    | some b =>
        if set.contains b then
          follow { p with column := p.column + 1 }
        else none
| .anchor place, p, follow =>
    if s.admits p.column place then follow p else none
| .seq a b, p, follow =>
    a.match? s p (fun q => b.match? s q follow)
| .alt a b, p, follow =>
    orElse (a.match? s p follow) (fun _ => b.match? s p follow)
| .group number a, p, follow =>
    a.match? s p (fun q =>
      follow
        { q with
          groups := (number, ⟨p.column, q.column⟩) :: q.groups })
| .atomic a, p, follow =>
    match a.match? s p some with
    | none => none
    | some q => follow q
| .ahead true a, p, follow =>
    match a.match? s p some with
    | none => none
    | some q => follow { q with column := p.column }
| .ahead false a, p, follow =>
    match a.match? s p some with
    | none => follow p
    | some _ => none
| .behind positive width a, p, follow =>
    let found :=
      if width ≤ p.column then
        a.match? s { p with column := p.column - width }
          (fun q => if q.column = p.column then some q else none)
      else none
    match positive, found with
    | true, none => none
    | true, some q => follow { q with column := p.column }
    | false, none => follow p
    | false, some _ => none
| .run set least most greed, p, follow =>
    matchRow s set least most greed p follow
| .loop a least most greed, p, follow =>
    times (fun q f => a.match? s q f) least p (fun q =>
      optional s (fun r f => a.match? s r f) least most greed q follow)
| .again number folded, p, follow =>
    match p.groups.span? number with
    | none => none
    | some span =>
        let length := span.stop - span.start
        if p.column + length ≤ s.line.size ∧
            s.repeats folded p.column span.start length then
          follow { p with column := p.column + length }
        else none

end Node

------------------------------------------------------------
-- Searching
------------------------------------------------------------

/- The part of a line that a pattern matched, with its groups. -/
structure Match where
  start : Nat
  stop : Nat
  groups : Groups
deriving DecidableEq, Repr, Inhabited

namespace Match

/- The whole match for number zero, else the group, if it took part. -/
def group? (m : Match) (number : Nat) : Option Span :=
  if number = 0 then some ⟨m.start, m.stop⟩
  else m.groups.span? number

end Match

namespace Pattern

/- Match the pattern at a column. -/
def matchAt?
    (pattern : Pattern)
    (s : Subject)
    (column : Nat) : Option Match :=
  (pattern.root.match? s ⟨column, []⟩ some).map
    (fun p => ⟨column, p.column, p.groups⟩)

/- The first match at one of `n` columns from `column` on. -/
def searchWithin
    (pattern : Pattern)
    (s : Subject) : Nat → Nat → Option Match
| 0, _ => none
| n + 1, column =>
    match pattern.matchAt? s column with
    | some m => some m
    | none => pattern.searchWithin s n (column + 1)

/-
  The leftmost match that starts at `column` or after it.  What
  looks back sees the line before that column too.
-/
def searchFrom?
    (pattern : Pattern)
    (line : Array UInt8)
    (column : Nat) : Option Match :=
  pattern.searchWithin ⟨line, column⟩ (line.size + 1 - column) column

end Pattern

end Marginalia

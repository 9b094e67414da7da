import Marginalia.Text.Bytes

/-
  This file defines patterns: the expressions by which a grammar
  describes the texts that its rules match.  A pattern reads
  single bytes.

  Key definitions include:
    * `ByteSet`, `ByteSet.contains`
    * `Anchor`
    * `Greed`
    * `Node`
    * `Node.width?`
    * `Pattern`
-/

namespace Marginalia

------------------------------------------------------------
-- Sets of Bytes
------------------------------------------------------------

/-
  A set of bytes, as a list of intervals that may be negated.
  A folded set does not tell upper from lower case.
-/
structure ByteSet where
  intervals : List (UInt8 × UInt8)
  negated : Bool
  folded : Bool
deriving DecidableEq, Repr, Inhabited

namespace ByteSet

/- The byte lies in one of the intervals. -/
def covers (intervals : List (UInt8 × UInt8)) (b : UInt8) : Bool :=
  intervals.any (fun i => i.1 ≤ b && b ≤ i.2)

/- Membership of a byte. -/
def contains (set : ByteSet) (b : UInt8) : Bool :=
  let inside :=
    if set.folded then
      covers set.intervals b ||
        covers set.intervals (Ascii.toLower b) ||
        covers set.intervals (Ascii.toUpper b)
    else covers set.intervals b
  inside != set.negated

/- The set of one byte. -/
def single (folded : Bool) (b : UInt8) : ByteSet :=
  { intervals := [(b, b)], negated := false, folded := folded }

/- The set of all bytes. -/
def all : ByteSet :=
  { intervals := [(0, 255)], negated := false, folded := false }

/- Digits. -/
def digits : List (UInt8 × UInt8) :=
  [(48, 57)]

/- Bytes other than digits. -/
def nonDigits : List (UInt8 × UInt8) :=
  [(0, 47), (58, 255)]

/- Word bytes. -/
def words : List (UInt8 × UInt8) :=
  [(48, 57), (65, 90), (95, 95), (97, 122)]

/- Bytes other than word bytes. -/
def nonWords : List (UInt8 × UInt8) :=
  [(0, 47), (58, 64), (91, 94), (96, 96), (123, 255)]

/- White space. -/
def spaces : List (UInt8 × UInt8) :=
  [(9, 13), (32, 32)]

/- Bytes other than white space. -/
def nonSpaces : List (UInt8 × UInt8) :=
  [(0, 8), (14, 31), (33, 255)]

end ByteSet

------------------------------------------------------------
-- Nodes
------------------------------------------------------------

/-
  Conditions on a place in the line: its two ends, the edges of
  words, and the column where the search began.
-/
inductive Anchor where
| lineStart
| lineEnd
| wordEdge
| noWordEdge
| searchStart
deriving DecidableEq, Repr

/- Whether a repetition first tries to go on or first tries to stop. -/
inductive Greed where
| greedy
| lazy
deriving DecidableEq, Repr

/-
  The expressions of a pattern.  `run` is a repetition of single
  bytes; an upper bound of `none` means that there is none.  A
  look behind knows how many bytes it reads.
-/
inductive Node where
| empty
| byte (set : ByteSet)
| anchor (place : Anchor)
| seq (first second : Node)
| alt (first second : Node)
| group (number : Nat) (body : Node)
| atomic (body : Node)
| ahead (positive : Bool) (body : Node)
| behind (positive : Bool) (width : Nat) (body : Node)
| run (set : ByteSet) (least : Nat) (most : Option Nat) (greed : Greed)
| loop (body : Node) (least : Nat) (most : Option Nat) (greed : Greed)
| again (number : Nat) (folded : Bool)
deriving Repr, Inhabited

namespace Node

/- One node after the other. -/
def ofList : List Node → Node
| [] => .empty
| [n] => n
| n :: m :: rest => .seq n (ofList (m :: rest))

/- The first node that fits. -/
def choice : List Node → Node
| [] => .empty
| [n] => n
| n :: m :: rest => .alt n (choice (m :: rest))

/-
  The number of bytes that every match of the node reads, if
  that number is fixed.
-/
def width? : Node → Option Nat
| .empty => some 0
| .byte _ => some 1
| .anchor _ => some 0
| .seq a b => do
    let m ← a.width?
    let n ← b.width?
    return m + n
| .alt a b => do
    let m ← a.width?
    let n ← b.width?
    if m = n then return m else none
| .group _ a => a.width?
| .atomic a => a.width?
| .ahead _ _ => some 0
| .behind _ _ _ => some 0
| .run _ least most _ => if most = some least then some least else none
| .loop a least most _ => do
    let n ← a.width?
    if most = some least then return least * n else none
| .again _ _ => none

end Node

------------------------------------------------------------
-- Patterns
------------------------------------------------------------

/-
  A pattern: an expression whose groups are numbered from one up
  to `groupCount`.
-/
structure Pattern where
  groupCount : Nat
  root : Node
deriving Repr, Inhabited

end Marginalia

import Marginalia.Pattern.Basic
import Marginalia.Text.Decimal

/-
  This file reads the source of a pattern.  The source is read
  from left to right; the groups that are still open are kept on
  a stack, each with what stands before it.

  A pattern may begin with `(?i)`, `(?x)` or both letters: the
  first makes letters match both cases, the second lets white
  space and `#` comments stand between its parts.  Sources that
  leave a group or a set open, close a group too often, repeat
  nothing or repeat twice, count down, or look back over a text
  of no fixed width are refused.

  Key definitions include:
    * `Source.Flags`, `Source.Reading`
    * `Source.bounds?`
    * `Source.set?`
    * `Source.step?`
    * `Pattern.compile?`
-/

namespace Marginalia

namespace Pattern.Source

------------------------------------------------------------
-- The State of Reading
------------------------------------------------------------

/- What the letters at the start of a pattern switch on. -/
structure Flags where
  folded : Bool
  spaced : Bool
deriving DecidableEq, Repr, Inhabited

/- What the opening of a group makes of its body. -/
inductive Opening where
| group (number : Nat)
| plain
| atomic
| ahead (positive : Bool)
| behind (positive : Bool)
deriving DecidableEq, Repr

/- A part of a pattern, and whether a repetition may follow it. -/
structure Item where
  node : Node
  repeatable : Bool
deriving Inhabited

/-
  What has been read inside a group: the alternatives before the
  last bar, and the items after it, both in reverse.
-/
structure Level where
  alternatives : List Node
  items : List Item
deriving Inhabited

namespace Level

/- Nothing has been read. -/
def blank : Level :=
  ⟨[], []⟩

/- One more item. -/
def add (level : Level) (node : Node) (repeatable : Bool) : Level :=
  { level with items := ⟨node, repeatable⟩ :: level.items }

/- The items since the last bar, in order. -/
def branch (level : Level) : Node :=
  Node.ofList (level.items.reverse.map Item.node)

/- A bar ends an alternative. -/
def split (level : Level) : Level :=
  ⟨level.branch :: level.alternatives, []⟩

/- All that the group holds. -/
def close (level : Level) : Node :=
  Node.choice (level.branch :: level.alternatives).reverse

end Level

/-
  What has been read so far: the level of the innermost open
  group, the openings with the levels around them, the number of
  groups, and which of them are closed.
-/
structure Reading where
  level : Level
  around : List (Opening × Level)
  groupCount : Nat
  closed : List Nat
deriving Inhabited

namespace Reading

/- Nothing has been read. -/
def blank : Reading :=
  ⟨Level.blank, [], 0, []⟩

/- One more item in the innermost group. -/
def add (r : Reading) (node : Node) (repeatable : Bool) : Reading :=
  { r with level := r.level.add node repeatable }

/- Open a group. -/
def enter (r : Reading) (opening : Opening) : Reading :=
  { r with
    level := Level.blank
    around := (opening, r.level) :: r.around }

/- Open a numbered group. -/
def enterGroup (r : Reading) : Reading :=
  { r.enter (.group (r.groupCount + 1)) with
    groupCount := r.groupCount + 1 }

/- Close the innermost group. -/
def leave? (r : Reading) : Option Reading :=
  match r.around with
  | [] => none
  | (opening, outer) :: around =>
      let body := r.level.close
      let back : Reading := { r with level := outer, around := around }
      match opening with
      | .group number =>
          some
            { back.add (.group number body) true with
              closed := number :: r.closed }
      | .plain => some (back.add body true)
      | .atomic => some (back.add (.atomic body) true)
      | .ahead positive => some (back.add (.ahead positive body) true)
      | .behind positive =>
          body.width?.map
            (fun width => back.add (.behind positive width body) true)

end Reading

------------------------------------------------------------
-- Repetitions
------------------------------------------------------------

/- How a repetition gives back what it took. -/
inductive Yield where
| greedy
| lazy
| possessive
deriving DecidableEq, Repr

/- The mark after a repetition. -/
def yield : Bytes → Yield × Bytes
| Ascii.question :: rest => (.lazy, rest)
| Ascii.plus :: rest => (.possessive, rest)
| rest => (.greedy, rest)

/- The bounds between braces, with the closing brace. -/
def bounds? (s : Bytes) : Option ((Nat × Option Nat) × Bytes) :=
  let low := s.takeWhile Ascii.isDigit
  if low.isEmpty then none
  else
    let least := Decimal.value low
    match s.dropWhile Ascii.isDigit with
    | Ascii.rbrace :: rest => some ((least, some least), rest)
    | Ascii.comma :: Ascii.rbrace :: rest => some ((least, none), rest)
    | Ascii.comma :: s =>
        let high := s.takeWhile Ascii.isDigit
        if high.isEmpty then none
        else
          match s.dropWhile Ascii.isDigit with
          | Ascii.rbrace :: rest =>
              some ((least, some (Decimal.value high)), rest)
          | _ => none
    | _ => none

/- Repeat a node; a repetition of single bytes is a row. -/
def repetition
    (node : Node)
    (least : Nat)
    (most : Option Nat)
    (greed : Greed) : Node :=
  match node with
  | .byte set => .run set least most greed
  | node => .loop node least most greed

/- Repeat the last item. -/
def repeatLast?
    (r : Reading)
    (least : Nat)
    (most : Option Nat)
    (rest : Bytes) : Option (Reading × Bytes) :=
  match r.level.items with
  | [] => none
  | item :: items =>
      if item.repeatable && most.all (fun m => decide (least ≤ m)) then
        let (mark, rest) := yield rest
        let node := match mark with
          | .greedy => repetition item.node least most .greedy
          | .lazy => repetition item.node least most .lazy
          | .possessive =>
              .atomic (repetition item.node least most .greedy)
        some
          ({ r with
              level :=
                { r.level with items := ⟨node, false⟩ :: items } },
            rest)
      else none

------------------------------------------------------------
-- Escapes and Sets
------------------------------------------------------------

/- The intervals that a letter after a backslash names. -/
def classOf? (b : UInt8) : Option (List (UInt8 × UInt8)) :=
  if b = 100 then some ByteSet.digits
  else if b = 68 then some ByteSet.nonDigits
  else if b = 119 then some ByteSet.words
  else if b = 87 then some ByteSet.nonWords
  else if b = 115 then some ByteSet.spaces
  else if b = 83 then some ByteSet.nonSpaces
  else none

/- The control byte that a letter after a backslash names. -/
def control? (b : UInt8) : Option UInt8 :=
  if b = 116 then some 9
  else if b = 110 then some 10
  else if b = 118 then some 11
  else if b = 102 then some 12
  else if b = 114 then some 13
  else none

/- The anchor that a letter after a backslash names. -/
def anchor? (b : UInt8) : Option Anchor :=
  if b = 98 then some .wordEdge
  else if b = 66 then some .noWordEdge
  else if b = 71 then some .searchStart
  else none

/- What an escape outside a set adds. -/
def escape? (flags : Flags) (r : Reading) (b : UInt8) : Option Reading :=
  match classOf? b with
  | some intervals =>
      some (r.add (.byte ⟨intervals, false, flags.folded⟩) true)
  | none =>
      match anchor? b with
      | some place => some (r.add (.anchor place) false)
      | none =>
          match control? b with
          | some c =>
              some (r.add (.byte (ByteSet.single flags.folded c)) true)
          | none =>
              if 49 ≤ b ∧ b ≤ 57 then
                let number := b.toNat - 48
                if number ∈ r.closed then
                  some (r.add (.again number flags.folded) true)
                else none
              else if Ascii.isAlphanumeric b then none
              else
                some (r.add (.byte (ByteSet.single flags.folded b)) true)

/- A member of a set: the intervals it stands for, one byte being alone. -/
inductive Member where
| byte (b : UInt8)
| intervals (is : List (UInt8 × UInt8))

/- The member of a set at the start of the text. -/
def member? : Bytes → Option (Member × Bytes)
| [] => none
| Ascii.backslash :: [] => none
| Ascii.backslash :: b :: rest =>
    match classOf? b with
    | some intervals => some (.intervals intervals, rest)
    | none =>
        match control? b with
        | some c => some (.byte c, rest)
        | none =>
            if b = 98 then some (.byte 8, rest)
            else if Ascii.isAlphanumeric b then none
            else some (.byte b, rest)
| b :: rest => some (.byte b, rest)

/- The upper end of an interval after its lower end, if one follows. -/
def upTo? : Bytes → Option Bytes
| Ascii.minus :: Ascii.rbracket :: _ => none
| Ascii.minus :: rest => some rest
| _ => none

/-
  The members of a set up to its closing bracket, with the
  intervals read so far in reverse.  A bracket that comes first
  is a member.
-/
def members? :
    Nat → Bool → List (UInt8 × UInt8) → Bytes →
      Option (List (UInt8 × UInt8) × Bytes)
| 0, _, _, _ => none
| fuel + 1, isFirst, read, s =>
    match isFirst, s with
    | false, Ascii.rbracket :: rest => some (read.reverse, rest)
    | _, s =>
        match member? s with
        | none => none
        | some (.intervals is, rest) =>
            members? fuel false (is.reverse ++ read) rest
        | some (.byte low, rest) =>
            match upTo? rest with
            | none => members? fuel false ((low, low) :: read) rest
            | some rest =>
                match member? rest with
                | some (.byte high, rest) =>
                    if low ≤ high then
                      members? fuel false ((low, high) :: read) rest
                    else none
                | _ => none

/- A set after its opening bracket. -/
def set? (flags : Flags) (s : Bytes) : Option (ByteSet × Bytes) :=
  let (negated, s) := match s with
    | Ascii.caret :: rest => (true, rest)
    | s => (false, s)
  (members? (s.length + 1) true [] s).map
    (fun r => (⟨r.1, negated, flags.folded⟩, r.2))

------------------------------------------------------------
-- One Step
------------------------------------------------------------

/- What an opening parenthesis opens. -/
def enter? (r : Reading) : Bytes → Option (Reading × Bytes)
| Ascii.question :: Ascii.colon :: rest => some (r.enter .plain, rest)
| Ascii.question :: Ascii.greater :: rest => some (r.enter .atomic, rest)
| Ascii.question :: Ascii.equals :: rest =>
    some (r.enter (.ahead true), rest)
| Ascii.question :: Ascii.bang :: rest =>
    some (r.enter (.ahead false), rest)
| Ascii.question :: Ascii.less :: Ascii.equals :: rest =>
    some (r.enter (.behind true), rest)
| Ascii.question :: Ascii.less :: Ascii.bang :: rest =>
    some (r.enter (.behind false), rest)
| Ascii.question :: _ => none
| rest => some (r.enterGroup, rest)

/- Read the part of the source that begins with a byte. -/
def step?
    (flags : Flags)
    (r : Reading)
    (b : UInt8)
    (rest : Bytes) : Option (Reading × Bytes) :=
  if flags.spaced && Ascii.isSpace b then some (r, rest)
  else if flags.spaced && b == Ascii.hash then
    some (r, rest.dropWhile (· != Ascii.lf))
  else if b = Ascii.backslash then
    match rest with
    | [] => none
    | c :: rest => (escape? flags r c).map (fun r => (r, rest))
  else if b = Ascii.lbracket then
    (set? flags rest).map (fun x => (r.add (.byte x.1) true, x.2))
  else if b = Ascii.lparen then enter? r rest
  else if b = Ascii.rparen then r.leave?.map (fun r => (r, rest))
  else if b = Ascii.bar then
    some ({ r with level := r.level.split }, rest)
  else if b = Ascii.star then repeatLast? r 0 none rest
  else if b = Ascii.plus then repeatLast? r 1 none rest
  else if b = Ascii.question then repeatLast? r 0 (some 1) rest
  else if b = Ascii.caret then some (r.add (.anchor .lineStart) false, rest)
  else if b = Ascii.dollar then some (r.add (.anchor .lineEnd) false, rest)
  else if b = Ascii.dot then some (r.add (.byte ByteSet.all) true, rest)
  else
    let literal :=
      (r.add (.byte (ByteSet.single flags.folded b)) true, rest)
    if b = Ascii.lbrace then
      match bounds? rest with
      | some ((least, most), rest) => repeatLast? r least most rest
      | none => some literal
    else some literal

/-
  Read the whole source.  Each step reads a byte at least, so
  the length of the source is enough fuel.
-/
def read? (flags : Flags) : Nat → Reading → Bytes → Option Reading
| _, r, [] => some r
| 0, _, _ :: _ => none
| fuel + 1, r, b :: rest =>
    match step? flags r b rest with
    | none => none
    | some (r, rest) => read? flags fuel r rest

------------------------------------------------------------
-- Flags
------------------------------------------------------------

/- The flags that a letter switches on. -/
def flag? (flags : Flags) (b : UInt8) : Option Flags :=
  if b = 105 then some { flags with folded := true }
  else if b = 120 then some { flags with spaced := true }
  else none

/- Letters up to a closing parenthesis. -/
def flagLetters? (flags : Flags) : Bytes → Option (Flags × Bytes)
| [] => none
| Ascii.rparen :: rest => some (flags, rest)
| b :: rest =>
    match flag? flags b with
    | none => none
    | some flags => flagLetters? flags rest

/- The flags of a source, and the source after them. -/
def flags (source : Bytes) : Flags × Bytes :=
  match source with
  | Ascii.lparen :: Ascii.question :: rest =>
      match flagLetters? ⟨false, false⟩ rest with
      | some r => r
      | none => (⟨false, false⟩, source)
  | source => (⟨false, false⟩, source)

end Pattern.Source

------------------------------------------------------------
-- Compiling
------------------------------------------------------------

namespace Pattern

/- The pattern of a source, if the source is well formed. -/
def compile? (source : Bytes) : Option Pattern :=
  let (flags, rest) := Source.flags source
  match Source.read? flags rest.length Source.Reading.blank rest with
  | none => none
  | some r =>
      if r.around.isEmpty then some ⟨r.groupCount, r.level.close⟩
      else none

end Pattern

end Marginalia

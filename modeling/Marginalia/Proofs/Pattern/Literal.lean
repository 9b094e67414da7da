import Mathlib.Data.List.Infix
import Marginalia.Grammar.BackReference
import Marginalia.Pattern.Engine

/-
  This file proves what the pattern of a text matches, in both ways
  in which a pattern can be read.

  As a rule each byte of the text stands for itself, whatever bytes
  are next to it.  Where white space may stand between the parts of
  a pattern, tabs and the other white bytes that are not escaped
  are passed over, so that the pattern matches the text without
  them.  The space and `#` are escaped and match themselves.

  This is so for every engine that reads a source of single bytes
  byte by byte.  Of the engine no more is asked than what one byte
  adds to the pattern of the bytes behind it.

  Key definitions include:
    * `Pattern.Spells`
    * `Engine.stopAt?`, `Engine.ReadsBytes`
    * `Engine.IsLiteral`
  The main statements are:
    * `Pattern.spells_escape`
    * `Engine.exists_isLiteral_of_spells`
    * `Pattern.escape_isLiteral`
    * `Engine.standard_readsBytes`
    * `Pattern.escape_tab_not_isLiteral`
-/

namespace Marginalia

------------------------------------------------------------
-- Rows of Bytes
------------------------------------------------------------

namespace Pattern

/- The bytes that do not stand for themselves unless escaped. -/
def isOperator (b : UInt8) : Bool :=
  (utf8 "\\^$.|?*+()[]\x7b\x7d").contains b

/- What switches on that white space may stand between the parts. -/
def heading (spaced : Bool) : Bytes :=
  if spaced then utf8 "(?x)" else []

/-
  The source is a row of single bytes that spell a text.  An
  operator is escaped, and so are `#` and the space if they count.
  White bytes that may stand between the others spell nothing.
-/
inductive Spells (spaced : Bool) : Bytes → Bytes → Prop where
| nil : Spells spaced [] []
| ordinary
    {b : UInt8}
    {source text : Bytes}
    (hOperator : isOperator b = false)
    (hCounts :
      spaced = true → Ascii.isSpace b = false ∧ b ≠ Ascii.hash)
    (hRest : Spells spaced source text) :
    Spells spaced (b :: source) (b :: text)
| escaped
    {b : UInt8}
    {source text : Bytes}
    (hMarked : isOperator b = true ∨ b = Ascii.hash ∨ b = Ascii.space)
    (hRest : Spells spaced source text) :
    Spells spaced (Ascii.backslash :: b :: source) (b :: text)
| passedOver
    {b : UInt8}
    {source text : Bytes}
    (hSpaced : spaced = true)
    (hWhite : Ascii.isSpace b = true)
    (hRest : Spells spaced source text) :
    Spells spaced (b :: source) text

/- The special bytes are the operators, `#` and the space. -/
theorem isSpecial_iff
    {b : UInt8} :
    isSpecial b = true ↔
      isOperator b = true ∨ b = Ascii.hash ∨ b = Ascii.space := by
  have hBytes :
      utf8 "\\^$.|?*+()[]\x7b\x7d# " =
        utf8 "\\^$.|?*+()[]\x7b\x7d" ++ [Ascii.hash, Ascii.space] := by
    decide
  rw [isSpecial, isOperator, hBytes]
  simp [List.contains_eq_mem]

/- White bytes that are not escaped: the controls from tab on. -/
def isPassedOver (b : UInt8) : Bool :=
  Ascii.isSpace b && b != Ascii.space

/-
  What is left of a text in a pattern: all of it, or what is not
  passed over if white space may stand between the parts.
-/
def kept (spaced : Bool) (text : Bytes) : Bytes :=
  text.filter (fun b => !(spaced && isPassedOver b))

theorem kept_false
    (text : Bytes) :
    kept false text = text := by
  simp [kept]

/- Nothing is left out of a text just if none of it is passed over. -/
theorem kept_true_eq_self_iff
    {text : Bytes} :
    kept true text = text ↔
      ∀ b ∈ text, Ascii.isSpace b = true → b = Ascii.space := by
  rw [kept, List.filter_eq_self]
  simp [isPassedOver, or_iff_not_imp_left]

/- The pattern of a text spells what is left of it. -/
theorem spells_escape
    (spaced : Bool)
    (text : Bytes) :
    Spells spaced (escape text) (kept spaced text) := by
  induction text with
  | nil => exact .nil
  | cons b text ih =>
      rw [escape, kept, List.filter_cons]
      cases hSpecial : isSpecial b with
      | true =>
          have hMarked := isSpecial_iff.mp hSpecial
          have hOver : isPassedOver b = false := by
            -- Of these bytes only the space is white.
            have hAll :
                (utf8 "\\^$.|?*+()[]\x7b\x7d# ").all
                    (fun b => !isPassedOver b) =
                  true := by
              decide
            simpa using
              List.all_eq_true.mp hAll b
                (List.contains_iff_mem.mp hSpecial)
          rw [if_pos rfl, hOver, Bool.and_false]
          exact .escaped hMarked ih
      | false =>
          have hOrdinary :
              ¬(isOperator b = true ∨ b = Ascii.hash ∨
                b = Ascii.space) := by
            rw [← isSpecial_iff, hSpecial]
            exact Bool.false_ne_true
          rw [not_or, not_or, Bool.not_eq_true] at hOrdinary
          rcases hOrdinary with ⟨hOperator, hHash, hSpace⟩
          have hOver : isPassedOver b = Ascii.isSpace b := by
            rw [isPassedOver, bne_iff_ne.mpr hSpace, Bool.and_true]
          rw [if_neg Bool.false_ne_true, hOver]
          by_cases hPassed : spaced = true ∧ Ascii.isSpace b = true
          · rw [hPassed.1, hPassed.2]
            rw [hPassed.1] at ih
            exact .passedOver rfl hPassed.2 ih
          · rw [if_pos (by simpa [or_iff_not_imp_left] using hPassed)]
            refine .ordinary hOperator ?_ ih
            intro hSpaced
            exact ⟨by simpa [hSpaced] using hPassed, hHash⟩

end Pattern

------------------------------------------------------------
-- Engines That Read Byte by Byte
------------------------------------------------------------

namespace Engine

open Pattern (Spells heading isOperator)

/- Where a match that starts at the column stops, if there is one. -/
def stopAt?
    (engine : Engine)
    (pattern : Pattern)
    (line : Array UInt8)
    (column : Nat) : Option Nat :=
  match engine.search? pattern line column with
  | some m => if m.start = column then some m.stop else none
  | none => none

/- The one pattern matches a byte and then what the other one does. -/
def Prepends
    (engine : Engine)
    (b : UInt8)
    (pattern rest : Pattern) : Prop :=
  ∀ (bytes : Array UInt8) (column : Nat),
    column ≤ bytes.size →
      engine.stopAt? pattern bytes column =
        if bytes[column]? = some b then
          engine.stopAt? rest bytes (column + 1)
        else none

/-
  The engine reads a row of single bytes byte by byte.  Nothing
  matches nothing.  A byte that is no operator stands for itself
  in front of such a row, and so does any operator, `#` and the
  space behind a backslash.  Where white space may stand between
  the parts, white bytes are passed over.
-/
structure ReadsBytes (engine : Engine) : Prop where
  nothing :
    ∀ spaced : Bool,
      ∃ pattern,
        engine.compile? (heading spaced) = some pattern ∧
          ∀ (line : Array UInt8) (column : Nat),
            column ≤ line.size →
              engine.stopAt? pattern line column = some column
  ordinary :
    ∀ {spaced : Bool} {b : UInt8} {source text : Bytes}
      {rest : Pattern},
      isOperator b = false →
        (spaced = true → Ascii.isSpace b = false ∧ b ≠ Ascii.hash) →
          Spells spaced source text →
            engine.compile? (heading spaced ++ source) = some rest →
              ∃ pattern,
                engine.compile? (heading spaced ++ b :: source) =
                    some pattern ∧
                  engine.Prepends b pattern rest
  escaped :
    ∀ {spaced : Bool} {b : UInt8} {source text : Bytes}
      {rest : Pattern},
      (isOperator b = true ∨ b = Ascii.hash ∨ b = Ascii.space) →
        Spells spaced source text →
          engine.compile? (heading spaced ++ source) = some rest →
            ∃ pattern,
              engine.compile?
                    (heading spaced ++ Ascii.backslash :: b :: source) =
                  some pattern ∧
                engine.Prepends b pattern rest
  passedOver :
    ∀ {b : UInt8} {source text : Bytes} {rest : Pattern},
      Ascii.isSpace b = true →
        Spells true source text →
          engine.compile? (heading true ++ source) = some rest →
            ∃ pattern,
              engine.compile? (heading true ++ b :: source) =
                  some pattern ∧
                ∀ (line : Array UInt8) (column : Nat),
                  column ≤ line.size →
                    engine.stopAt? pattern line column =
                      engine.stopAt? rest line column

------------------------------------------------------------
-- Texts That Stand for Themselves
------------------------------------------------------------

/-
  The pattern matches at a column just where the line holds the
  text, and the match is the text.
-/
def IsLiteral
    (engine : Engine)
    (pattern : Pattern)
    (text : Bytes) : Prop :=
  ∀ (line : Array UInt8) (column : Nat),
    column ≤ line.size →
      engine.stopAt? pattern line column =
        if text <+: line.toList.drop column then
          some (column + text.length)
        else none

variable {engine : Engine}
variable {pattern rest : Pattern}

/- A text is at a column if its first byte is and the others follow. -/
theorem ite_cons_isPrefix
    (bytes : Array UInt8)
    (column : Nat)
    (b : UInt8)
    (text : Bytes) :
    (if b :: text <+: bytes.toList.drop column then
          some (column + (b :: text).length)
        else none) =
      if bytes[column]? = some b then
        if text <+: bytes.toList.drop (column + 1) then
          some (column + 1 + text.length)
        else none
      else none := by
  rw [List.length_cons, Nat.add_assoc, Nat.add_comm 1]
  cases hByte : bytes[column]? with
  | none =>
      have hEnd : bytes.toList.drop column = [] :=
        List.drop_eq_nil_of_le (Array.getElem?_eq_none_iff.mp hByte)
      simp [hEnd]
  | some c =>
      rcases Array.getElem?_eq_some_iff.mp hByte with ⟨hLt, hIs⟩
      rw [List.drop_eq_getElem_cons (by simpa using hLt),
        Array.getElem_toList, hIs]
      simp only [List.cons_prefix_cons, Option.some.injEq,
        @eq_comm _ b c, ite_and]

/- A byte in front of a pattern that stands for a text. -/
theorem IsLiteral.cons
    {b : UInt8}
    {text : Bytes}
    (hPrepends : engine.Prepends b pattern rest)
    (hRest : engine.IsLiteral rest text) :
    engine.IsLiteral pattern (b :: text) := by
  intro line column hColumn
  rw [hPrepends line column hColumn, ite_cons_isPrefix]
  split
  · next hByte =>
      exact
        hRest line (column + 1) (Array.getElem?_eq_some_iff.mp hByte).1
  · rfl

/-
  What spells a text is accepted and stands for the text.  The
  induction is on the row of bytes.
-/
theorem exists_isLiteral_of_spells
    {spaced : Bool}
    {source text : Bytes}
    (hReads : engine.ReadsBytes)
    (hSpells : Spells spaced source text) :
    ∃ pattern,
      engine.compile? (heading spaced ++ source) = some pattern ∧
        engine.IsLiteral pattern text := by
  induction hSpells with
  | nil =>
      rcases hReads.nothing spaced with ⟨pattern, hCompile, hStop⟩
      refine ⟨pattern, by rw [List.append_nil, hCompile], ?_⟩
      intro line column hColumn
      rw [hStop line column hColumn, if_pos List.nil_prefix]
      rfl
  | ordinary hOperator hCounts hRest ih =>
      rcases ih with ⟨rest, hCompile, hLiteral⟩
      rcases hReads.ordinary hOperator hCounts hRest hCompile with
        ⟨pattern, hAccepted, hPrepends⟩
      exact ⟨pattern, hAccepted, hLiteral.cons hPrepends⟩
  | escaped hMarked hRest ih =>
      rcases ih with ⟨rest, hCompile, hLiteral⟩
      rcases hReads.escaped hMarked hRest hCompile with
        ⟨pattern, hAccepted, hPrepends⟩
      exact ⟨pattern, hAccepted, hLiteral.cons hPrepends⟩
  | passedOver hSpaced hWhite hRest ih =>
      subst hSpaced
      rcases ih with ⟨rest, hCompile, hLiteral⟩
      rcases hReads.passedOver hWhite hRest hCompile with
        ⟨pattern, hAccepted, hSame⟩
      refine ⟨pattern, hAccepted, ?_⟩
      intro line column hColumn
      rw [hSame line column hColumn, hLiteral line column hColumn]

/- On a line that is one text, a pattern for it finds no longer one. -/
theorem IsLiteral.isPrefix
    {a b : Bytes}
    (hFirst : engine.IsLiteral pattern a)
    (hSecond : engine.IsLiteral pattern b) :
    b <+: a := by
  have hBoth :=
    (hFirst a.toArray 0 (Nat.zero_le _)).symm.trans
      (hSecond a.toArray 0 (Nat.zero_le _))
  rw [List.drop_zero, if_pos List.prefix_rfl] at hBoth
  by_contra hNot
  rw [if_neg hNot] at hBoth
  cases hBoth

/- A pattern stands for one text only. -/
theorem IsLiteral.unique
    {a b : Bytes}
    (hFirst : engine.IsLiteral pattern a)
    (hSecond : engine.IsLiteral pattern b) :
    a = b :=
  List.IsPrefix.eq_of_length (hSecond.isPrefix hFirst)
    (Nat.le_antisymm (hSecond.isPrefix hFirst).length_le
      (hFirst.isPrefix hSecond).length_le)

end Engine

/-
  For every engine that reads bytes one by one, and for every text,
  whatever bytes it is made of:

  Its pattern is accepted and stands for the text.

  So it is accepted where white space may stand between the parts
  of a pattern, but there it stands for what is left of the text.
  That is the text itself just if no white byte but the space is in
  it.
-/
theorem Pattern.escape_isLiteral
    {engine : Engine}
    (hReads : engine.ReadsBytes)
    (text : Bytes) :
    ∃ plain spaced,
      engine.compile? (escape text) = some plain ∧
        engine.IsLiteral plain text ∧
          engine.compile? (utf8 "(?x)" ++ escape text) = some spaced ∧
            engine.IsLiteral spaced
                (text.filter (fun b => !isPassedOver b)) ∧
              (engine.IsLiteral spaced text ↔
                ∀ b ∈ text,
                  Ascii.isSpace b = true → b = Ascii.space) := by
  rcases
      Engine.exists_isLiteral_of_spells hReads
        (spells_escape false text) with
    ⟨plain, hPlain, hText⟩
  rcases
      Engine.exists_isLiteral_of_spells hReads
        (spells_escape true text) with
    ⟨spaced, hSpaced, hLeft⟩
  rw [kept_false] at hText
  refine ⟨plain, spaced, hPlain, hText, hSpaced, hLeft, ?_⟩
  rw [← kept_true_eq_self_iff]
  constructor
  · exact hLeft.unique
  · intro hSame
    rwa [hSame] at hLeft

------------------------------------------------------------
-- Matching a Text
------------------------------------------------------------

/- A set of one byte has just this member. -/
theorem ByteSet.contains_single
    (a b : UInt8) :
    (single false a).contains b = (b == a) := by
  have hSame : (decide (a ≤ b) && decide (b ≤ a)) = (b == a) := by
    rw [Bool.eq_iff_iff, Bool.and_eq_true, decide_eq_true_eq,
      decide_eq_true_eq, beq_iff_eq, UInt8.le_iff_toNat_le,
      UInt8.le_iff_toNat_le, ← UInt8.toNat_inj]
    omega
  simp [single, contains, covers, hSame]

namespace Node

/- One byte after the other. -/
def ofBytes (folded : Bool) (text : Bytes) : Node :=
  ofList (text.map (fun b => .byte (ByteSet.single folded b)))

/- A node before others. -/
theorem match?_ofList_cons
    (s : Subject)
    (n : Node)
    (rest : List Node)
    (p : Point)
    (follow : Follow) :
    (ofList (n :: rest)).match? s p follow =
      n.match? s p (fun q => (ofList rest).match? s q follow) := by
  cases rest with
  | nil => rfl
  | cons m rest => rfl

/- A row of bytes matches where the line holds them. -/
theorem match?_ofBytes
    (s : Subject)
    (text : Bytes) :
    ∀ (p : Point) (follow : Follow),
      (ofBytes false text).match? s p follow =
        if text <+: s.line.toList.drop p.column then
          follow { p with column := p.column + text.length }
        else none := by
  induction text with
  | nil =>
      intro p follow
      rw [if_pos List.nil_prefix]
      rfl
  | cons b text ih =>
      intro p follow
      have hRest :
          ∀ q : Point,
            (ofList
                  (text.map
                    (fun b => .byte (ByteSet.single false b)))).match? s q
                follow =
              if text <+: s.line.toList.drop q.column then
                follow { q with column := q.column + text.length }
              else none :=
        fun q => ih q follow
      rw [ofBytes, List.map_cons, match?_ofList_cons, match?]
      simp only [hRest]
      cases hByte : s.line[p.column]? with
      | none =>
          rw [Array.getElem?_eq_none_iff] at hByte
          have hEnd : s.line.toList.drop p.column = [] :=
            List.drop_eq_nil_of_le hByte
          dsimp only
          rw [hEnd, if_neg]
          intro hPrefix
          cases List.prefix_nil.mp hPrefix
      | some c =>
          rcases Array.getElem?_eq_some_iff.mp hByte with ⟨hLt, hIs⟩
          have hDrop :
              s.line.toList.drop p.column =
                c :: s.line.toList.drop (p.column + 1) := by
            rw [List.drop_eq_getElem_cons (by simpa using hLt),
              Array.getElem_toList, hIs]
          dsimp only
          rw [ByteSet.contains_single, hDrop]
          by_cases hSame : c = b
          · subst hSame
            rw [beq_self_eq_true, if_pos rfl, List.length_cons,
              Nat.add_assoc, Nat.add_comm 1]
            simp only [List.prefix_cons_inj]
          · rw [if_neg (by simpa using hSame), if_neg]
            intro hPrefix
            exact hSame (List.cons_prefix_cons.mp hPrefix).1.symm

end Node

------------------------------------------------------------
-- Reading Rows of Bytes
------------------------------------------------------------

namespace Pattern

namespace Source

/- One more byte of a text. -/
def Reading.addByte
    (flags : Flags)
    (r : Reading)
    (b : UInt8) : Reading :=
  r.add (.byte (ByteSet.single flags.folded b)) true

/- None of these bytes means anything else behind a backslash. -/
theorem plain_of_isSpecial
    {b : UInt8}
    (hSpecial : isSpecial b = true) :
    classOf? b = none ∧ anchor? b = none ∧ control? b = none ∧
      ¬(49 ≤ b ∧ b ≤ 57) ∧ Ascii.isAlphanumeric b = false := by
  have hAll :
      (utf8 "\\^$.|?*+()[]\x7b\x7d# ").all (fun special =>
          decide
            (classOf? special = none ∧ anchor? special = none ∧
              control? special = none ∧
                ¬(49 ≤ special ∧ special ≤ 57) ∧
                  Ascii.isAlphanumeric special = false)) =
        true := by
    decide +kernel
  exact
    of_decide_eq_true
      (List.all_eq_true.mp hAll b (List.contains_iff_mem.mp hSpecial))

/- A byte that is no operator is none of them. -/
theorem ne_of_not_isOperator
    {b operator : UInt8}
    (hOrdinary : isOperator b = false)
    (hOperator : isOperator operator = true) :
    b ≠ operator := by
  rintro rfl
  rw [hOrdinary] at hOperator
  cases hOperator

/- A special byte behind a backslash stands for itself. -/
theorem step?_escaped
    {b : UInt8}
    (hSpecial : isSpecial b = true)
    (flags : Flags)
    (r : Reading)
    (rest : Bytes) :
    step? flags r Ascii.backslash (b :: rest) =
      some (r.addByte flags b, rest) := by
  rcases plain_of_isSpecial hSpecial with
    ⟨hClass, hAnchor, hControl, hDigit, hLetter⟩
  have hEscape : escape? flags r b = some (r.addByte flags b) := by
    simp only [escape?, hClass, hAnchor, hControl, if_neg hDigit, hLetter,
      Bool.false_eq_true, if_false, Reading.addByte]
  have hWhite : Ascii.isSpace Ascii.backslash = false := rfl
  have hHash : (Ascii.backslash == Ascii.hash) = false := rfl
  simp only [step?, hWhite, hHash, Bool.and_false, Bool.false_eq_true,
    if_false, if_true, hEscape, Option.map_some]

/- A byte that is no operator stands for itself if it counts. -/
theorem step?_ordinary
    {b : UInt8}
    {flags : Flags}
    (hOrdinary : isOperator b = false)
    (hCounts :
      flags.spaced = true → Ascii.isSpace b = false ∧ b ≠ Ascii.hash)
    (r : Reading)
    (rest : Bytes) :
    step? flags r b rest = some (r.addByte flags b, rest) := by
  have hOther : ∀ operator, isOperator operator = true → b ≠ operator :=
    fun operator => ne_of_not_isOperator hOrdinary
  have hWhite : ¬(flags.spaced && Ascii.isSpace b) = true := by
    intro hBoth
    rw [Bool.and_eq_true] at hBoth
    rw [(hCounts hBoth.1).1] at hBoth
    cases hBoth.2
  have hHash : ¬(flags.spaced && b == Ascii.hash) = true := by
    intro hBoth
    rw [Bool.and_eq_true, beq_iff_eq] at hBoth
    exact (hCounts hBoth.1).2 hBoth.2
  unfold step?
  rw [if_neg hWhite, if_neg hHash, if_neg (hOther Ascii.backslash rfl),
    if_neg (hOther Ascii.lbracket rfl),
    if_neg (hOther Ascii.lparen rfl), if_neg (hOther Ascii.rparen rfl),
    if_neg (hOther Ascii.bar rfl), if_neg (hOther Ascii.star rfl),
    if_neg (hOther Ascii.plus rfl), if_neg (hOther Ascii.question rfl),
    if_neg (hOther Ascii.caret rfl), if_neg (hOther Ascii.dollar rfl),
    if_neg (hOther Ascii.dot rfl)]
  dsimp only
  rw [if_neg (hOther Ascii.lbrace rfl)]
  rfl

/- White space between the parts adds nothing. -/
theorem step?_passedOver
    {b : UInt8}
    {flags : Flags}
    (hSpaced : flags.spaced = true)
    (hWhite : Ascii.isSpace b = true)
    (r : Reading)
    (rest : Bytes) :
    step? flags r b rest = some (r, rest) := by
  unfold step?
  rw [hSpaced, hWhite]
  rfl

/- A step that reads the first bytes of a source. -/
theorem read?_of_step?
    {flags : Flags}
    {fuel : Nat}
    {r next : Reading}
    {b : UInt8}
    {source rest : Bytes}
    (hFuel : 0 < fuel)
    (hStep : step? flags r b source = some (next, rest)) :
    read? flags fuel r (b :: source) =
      read? flags (fuel - 1) next rest := by
  cases fuel with
  | zero => exact absurd hFuel (Nat.lt_irrefl 0)
  | succ fuel => rw [read?, hStep, Nat.add_sub_cancel]

/- Reading a row of bytes adds the text that they spell. -/
theorem read?_of_spells
    {spaced : Bool}
    {source text : Bytes}
    (hSpells : Spells spaced source text) :
    ∀ {fuel : Nat} (r : Reading),
      source.length ≤ fuel →
        read? ⟨false, spaced⟩ fuel r source =
          some (text.foldl (Reading.addByte ⟨false, spaced⟩) r) := by
  induction hSpells with
  | nil =>
      intro fuel r _
      cases fuel <;> rfl
  | ordinary hOperator hCounts hRest ih =>
      intro fuel r hFuel
      rw [List.length_cons] at hFuel
      rw [read?_of_step? (by omega)
          (step?_ordinary hOperator hCounts r _),
        ih _ (by omega)]
      rfl
  | escaped hMarked hRest ih =>
      intro fuel r hFuel
      rw [List.length_cons, List.length_cons] at hFuel
      rw [read?_of_step? (by omega)
          (step?_escaped (isSpecial_iff.mpr hMarked) _ r _),
        ih _ (by omega)]
      rfl
  | passedOver hSpaced hWhite hRest ih =>
      intro fuel r hFuel
      rw [List.length_cons] at hFuel
      rw [read?_of_step? (by omega) (step?_passedOver hSpaced hWhite r _),
        ih _ (by omega)]

/- What the bytes of a text add to what is read. -/
theorem foldl_addByte
    (flags : Flags)
    (text : Bytes) :
    ∀ r : Reading,
      text.foldl (Reading.addByte flags) r =
        { r with
          level :=
            { r.level with
              items :=
                (text.map (fun b =>
                    (⟨.byte (ByteSet.single flags.folded b), true⟩ :
                      Item))).reverse ++
                  r.level.items } } := by
  induction text with
  | nil =>
      intro r
      rfl
  | cons b text ih =>
      intro r
      rw [List.foldl_cons, ih]
      simp [Reading.addByte, Reading.add, Level.add]

/- The pattern that is made of the bytes of a text. -/
theorem close_foldl_addByte
    (flags : Flags)
    (text : Bytes) :
    (text.foldl (Reading.addByte flags) Reading.blank).level.close =
      Node.ofBytes flags.folded text := by
  rw [foldl_addByte]
  simp [Level.close, Level.branch, Reading.blank, Level.blank,
    Node.choice, Node.ofBytes, Function.comp_def]

/- A row of bytes switches nothing on, and has its heading before it. -/
theorem flags_of_spells
    {spaced : Bool}
    {source text : Bytes}
    (hSpells : Spells spaced source text) :
    flags (heading spaced ++ source) = (⟨false, spaced⟩, source) := by
  cases spaced with
  | true =>
      have hBytes :
          heading true =
            [Ascii.lparen, Ascii.question, 120, Ascii.rparen] := by
        decide
      rw [hBytes]
      rfl
  | false =>
      have hFirst : source.head? ≠ some Ascii.lparen := by
        cases hSpells with
        | nil => exact nofun
        | ordinary hOperator =>
            simpa using ne_of_not_isOperator hOperator rfl
        | escaped => simp [Ascii.backslash, Ascii.lparen]
        | passedOver hSpaced => cases hSpaced
      change flags source = _
      unfold flags
      split
      · exact absurd rfl hFirst
      · rfl

end Source

/- A row of bytes is accepted, and stands for the text it spells. -/
theorem compile?_of_spells
    {spaced : Bool}
    {source text : Bytes}
    (hSpells : Spells spaced source text) :
    compile? (heading spaced ++ source) =
      some ⟨0, Node.ofBytes false text⟩ := by
  rw [compile?, Source.flags_of_spells hSpells]
  dsimp only
  rw [Source.read?_of_spells hSpells _ (Nat.le_refl _)]
  dsimp only
  rw [Source.close_foldl_addByte, Source.foldl_addByte]
  rfl

end Pattern

------------------------------------------------------------
-- The Standard Engine
------------------------------------------------------------

namespace Engine

open Pattern (Spells heading compile?_of_spells)

/- A search that starts where the pattern matches finds that match. -/
theorem stopAt?_standard
    {pattern : Pattern}
    {line : Array UInt8}
    {column : Nat}
    (hColumn : column ≤ line.size) :
    standard.stopAt? pattern line column =
      (pattern.matchAt? ⟨line, column⟩ column).map Match.stop := by
  have hSome :
      line.size + 1 - column = (line.size - column) + 1 := by
    omega
  unfold stopAt? standard Pattern.searchFrom?
  dsimp only
  rw [hSome, Pattern.searchWithin]
  cases hAt : pattern.matchAt? ⟨line, column⟩ column with
  | some m =>
      have hStart : m.start = column := by
        rcases Option.map_eq_some_iff.mp hAt with ⟨p, _, rfl⟩
        rfl
      simp [hStart]
  | none =>
      dsimp only [Option.map_none]
      split
      · next m hLater =>
          have hFrom :=
            (Pattern.searchWithin_inside _ (column + 1)
              (by dsimp only; omega) hLater).1
          rw [if_neg (by omega)]
      · rfl

/- The pattern that is made of the bytes of a text stands for it. -/
theorem isLiteral_ofBytes
    (text : Bytes) :
    standard.IsLiteral ⟨0, Node.ofBytes false text⟩ text := by
  intro line column hColumn
  rw [stopAt?_standard hColumn, Pattern.matchAt?, Node.match?_ofBytes]
  dsimp only
  split <;> rfl

/- One more byte in front of a text. -/
theorem prepends_ofBytes
    (b : UInt8)
    (text : Bytes) :
    standard.Prepends b ⟨0, Node.ofBytes false (b :: text)⟩
      ⟨0, Node.ofBytes false text⟩ := by
  intro line column hColumn
  rw [isLiteral_ofBytes (b :: text) line column hColumn,
    ite_cons_isPrefix]
  split
  · next hByte =>
      exact
        (isLiteral_ofBytes text line (column + 1)
          (Array.getElem?_eq_some_iff.mp hByte).1).symm
  · rfl

/- The standard engine reads bytes one by one. -/
theorem standard_readsBytes : standard.ReadsBytes where
  nothing := by
    intro spaced
    have hCompile := compile?_of_spells (.nil : Spells spaced [] [])
    rw [List.append_nil] at hCompile
    refine ⟨_, hCompile, ?_⟩
    intro line column hColumn
    rw [isLiteral_ofBytes [] line column hColumn,
      if_pos List.nil_prefix]
    rfl
  ordinary := by
    intro spaced b source text rest hOperator hCounts hRest hCompile
    have hSame := hCompile.symm.trans (compile?_of_spells hRest)
    cases hSame
    exact
      ⟨_, compile?_of_spells (.ordinary hOperator hCounts hRest),
        prepends_ofBytes b text⟩
  escaped := by
    intro spaced b source text rest hMarked hRest hCompile
    have hSame := hCompile.symm.trans (compile?_of_spells hRest)
    cases hSame
    exact
      ⟨_, compile?_of_spells (.escaped hMarked hRest),
        prepends_ofBytes b text⟩
  passedOver := by
    intro b source text rest hWhite hRest hCompile
    have hSame := hCompile.symm.trans (compile?_of_spells hRest)
    cases hSame
    exact
      ⟨_, compile?_of_spells (.passedOver rfl hWhite hRest),
        fun _ _ _ => rfl⟩

end Engine

namespace Pattern

/-
  The standard engine on a text with a star, a blank, `#` and a tab.
  The tab alone is lost where white space is passed over.
-/
theorem escape_isLiteral_star :
    let text := utf8 "a* #\tb"
    ∃ plain spaced,
      compile? (utf8 "a\\*\\ \\#\tb") = some plain ∧
        Engine.standard.IsLiteral plain text ∧
          compile? (utf8 "(?x)a\\*\\ \\#\tb") = some spaced ∧
            Engine.standard.IsLiteral spaced (utf8 "a* #b") ∧
              ¬Engine.standard.IsLiteral spaced text := by
  intro text
  rcases escape_isLiteral Engine.standard_readsBytes text with
    ⟨plain, spaced, hPlain, hText, hSpaced, hLeft, hWhole⟩
  have hKept : text.filter (fun b => !isPassedOver b) = utf8 "a* #b" := by
    decide
  rw [hKept] at hLeft
  refine ⟨plain, spaced, hPlain, hText, hSpaced, hLeft, ?_⟩
  rw [hWhole]
  decide

/-
  The begin of a region has a tab in its group.  The end that refers
  to the group is found behind the `a`, where there is no tab, and
  not at the tab.
-/
theorem escape_tab_not_isLiteral :
    let line := (utf8 "<\t>a!b\t!c").toArray
    ∃ opening m spaced ending,
      compile? (utf8 "<(.)>") = some opening ∧
        opening.searchFrom? line 0 = some m ∧
        BackReference.groupText line m 1 = [Ascii.tab] ∧
        compile? (utf8 "(?x)" ++ escape [Ascii.tab]) = some spaced ∧
        Engine.standard.stopAt? spaced line 3 = some 3 ∧
        ¬Engine.standard.IsLiteral spaced [Ascii.tab] ∧
        compile? (BackReference.resolve line m (utf8 "(?x)\\1!")) =
          some ending ∧
        ending.searchFrom? line 3 = some ⟨4, 5, []⟩ := by
  intro line
  have hComputed :
      (compile? (utf8 "<(.)>")).bind (fun opening =>
          (opening.searchFrom? line 0).bind (fun m =>
            (compile?
                (BackReference.resolve line m (utf8 "(?x)\\1!"))).map
              (fun ending =>
                (BackReference.groupText line m 1,
                  ending.searchFrom? line 3)))) =
        some ([Ascii.tab], some ⟨4, 5, []⟩) := by
    decide +kernel
  rcases Option.bind_eq_some_iff.mp hComputed with
    ⟨opening, hOpening, hFound⟩
  rcases Option.bind_eq_some_iff.mp hFound with ⟨m, hMatch, hEnd⟩
  rcases Option.map_eq_some_iff.mp hEnd with ⟨ending, hEnding, hBoth⟩
  rcases Prod.mk.inj hBoth with ⟨hText, hSearch⟩
  have hAccepted := compile?_of_spells (spells_escape true [Ascii.tab])
  have hEmpty :
      Engine.standard.IsLiteral
        ⟨0, Node.ofBytes false (kept true [Ascii.tab])⟩ [] :=
    Engine.isLiteral_ofBytes _
  refine
    ⟨opening, m, _, ending, hOpening, hMatch, hText, hAccepted, ?_, ?_,
      hEnding, hSearch⟩
  · exact hEmpty line 3 (by decide)
  · intro hLiteral
    cases hEmpty.unique hLiteral

end Pattern

end Marginalia

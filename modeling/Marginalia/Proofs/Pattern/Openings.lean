import Marginalia.Pattern.Engine
import Marginalia.Text.Utf16

/-
  This file reads off a pattern what its matches begin with,
  whether one of its groups covers them, and which texts they may
  be.

  A node that opens with a byte reads at least one byte, and the
  first one that it reads continues no character.  A pattern that
  is one group as a whole is covered by it.  A node made of single
  bytes has a few texts.

  These are facts about the standard engine.  What is proved with
  them takes them as properties of any engine.

  Key definitions include:
    * `ByteSet.startsCharacters`
    * `Node.opens`
    * `Pattern.isCoveredBy`
    * `Node.texts?`
    * `Engine.FindsAsWritten`
  The main statements are:
    * `Node.match?_opens`
    * `Pattern.properties_of_opens`
    * `Pattern.group?_of_isCoveredBy`
    * `Pattern.text_mem_texts?`
    * `Engine.standard_findsAsWritten`
-/

namespace Marginalia

------------------------------------------------------------
-- First Bytes
------------------------------------------------------------

namespace ByteSet

/- No byte of the set continues a character. -/
def startsCharacters (set : ByteSet) : Bool :=
  (List.range 64).all (fun i => !set.contains (UInt8.ofNat (128 + i)))

/- A byte of such a set continues no character. -/
theorem isContinuation_eq_false
    {set : ByteSet}
    {b : UInt8}
    (hSet : set.startsCharacters = true)
    (hByte : set.contains b = true) :
    Utf16.isContinuation b = false := by
  cases hContinues : Utf16.isContinuation b with
  | false => rfl
  | true =>
      simp only [Utf16.isContinuation, Bool.and_eq_true,
        decide_eq_true_eq, UInt8.le_iff_toNat_le, UInt8.lt_iff_toNat_lt]
        at hContinues
      have hLow : 128 ≤ b.toNat := hContinues.1
      have hHigh : b.toNat < 192 := hContinues.2
      have hSame : UInt8.ofNat (128 + (b.toNat - 128)) = b := by
        rw [Nat.add_sub_cancel' hLow, UInt8.ofNat_toNat]
      have hNot :=
        List.all_eq_true.mp hSet (b.toNat - 128)
          (List.mem_range.mpr (by omega))
      rw [hSame, hByte] at hNot
      cases hNot

end ByteSet

namespace Node

/- Every match of the node begins with a byte that starts a character. -/
def opens : Node → Bool
| .byte set => set.startsCharacters
| .seq a _ => a.opens
| .alt a b => a.opens && b.opens
| .group _ a => a.opens
| .atomic a => a.opens
| .run set least _ _ => decide (0 < least) && set.startsCharacters
| _ => false

/-
  A way to match that reads a byte which continues no character,
  and goes on behind it.
-/
def OpensWith
    (s : Subject)
    (body : Point → Follow → Option Point) : Prop :=
  ∀ (p : Point) (follow : Follow) (r : Point),
    p.Inside s.line.size →
      body p follow = some r →
        ∃ b q,
          s.line[p.column]? = some b ∧
            Utf16.isContinuation b = false ∧
              q.Inside s.line.size ∧ p.column < q.column ∧
                follow q = some r

/- The longest row that what follows accepts. -/
theorem exists_of_longestFirst
    {least : Nat}
    {p : Point}
    {follow : Follow}
    {r : Point} :
    ∀ n : Nat,
      longestFirst least n p follow = some r →
        ∃ k ≤ n,
          follow { p with column := p.column + (least + k) } = some r
| 0, hRow => ⟨0, Nat.le_refl _, hRow⟩
| n + 1, hRow => by
    rcases orElse_eq_some hRow with hLong | hShort
    · exact ⟨n + 1, Nat.le_refl _, hLong⟩
    · rcases exists_of_longestFirst n hShort with ⟨k, hLe, hFollow⟩
      exact ⟨k, Nat.le_succ_of_le hLe, hFollow⟩

/- The shortest row that what follows accepts. -/
theorem exists_of_shortestFirst
    {p : Point}
    {follow : Follow}
    {r : Point} :
    ∀ n least : Nat,
      shortestFirst least n p follow = some r →
        ∃ k ≤ n,
          follow { p with column := p.column + (least + k) } = some r
| 0, least, hRow => ⟨0, Nat.le_refl _, hRow⟩
| n + 1, least, hRow => by
    rcases orElse_eq_some hRow with hShort | hLong
    · exact ⟨0, Nat.zero_le _, hShort⟩
    · rcases exists_of_shortestFirst n (least + 1) hLong with
        ⟨k, hLe, hFollow⟩
      refine ⟨k + 1, Nat.succ_le_succ hLe, ?_⟩
      rw [← hFollow]
      congr 2
      omega

/- A row of at least one byte opens with a byte of its set. -/
theorem matchRow_opens
    {s : Subject}
    {set : ByteSet}
    {least : Nat}
    (hLeast : 0 < least)
    (hSet : set.startsCharacters = true)
    (most : Option Nat)
    (greed : Greed) :
    OpensWith s (matchRow s set least most greed) := by
  intro p follow r hInside hRow
  have hSize :=
    add_rowLength_le s set (s.room p.column most) p.column
      hInside.column_le
  unfold matchRow at hRow
  dsimp only at hRow
  split at hRow
  · cases hRow
  · next hLong =>
      have hFirst :
          ∃ b, s.line[p.column]? = some b ∧ set.contains b = true := by
        cases hRoom : s.room p.column most with
        | zero =>
            rw [hRoom, Subject.rowLength] at hLong
            omega
        | succ room =>
            rw [hRoom, Subject.rowLength] at hLong
            split at hLong
            · omega
            · next b hByte =>
                split at hLong
                · next hContains => exact ⟨b, hByte, hContains⟩
                · omega
      rcases hFirst with ⟨b, hByte, hContains⟩
      have hFollow :
          ∃ k ≤ s.rowLength set p.column (s.room p.column most) - least,
            follow { p with column := p.column + (least + k) } =
              some r := by
        cases greed with
        | greedy => exact exists_of_longestFirst _ hRow
        | lazy => exact exists_of_shortestFirst _ least hRow
      rcases hFollow with ⟨k, hLe, hNext⟩
      exact
        ⟨b, _, hByte, ByteSet.isContinuation_eq_false hSet hContains,
          hInside.move (by omega), by dsimp only; omega, hNext⟩

/- A node that opens with a byte reads one. -/
theorem match?_opens
    (s : Subject) :
    ∀ n : Node, n.opens = true → OpensWith s (n.match? s)
| .byte set, hOpens, p, follow, r, hInside, hMatch => by
    unfold match? at hMatch
    split at hMatch
    · cases hMatch
    · next b hByte =>
        split at hMatch
        · next hContains =>
            have hLt : p.column < s.line.size :=
              (Array.getElem?_eq_some_iff.mp hByte).1
            exact
              ⟨b, _, hByte,
                ByteSet.isContinuation_eq_false hOpens hContains,
                hInside.move hLt, Nat.lt_succ_self _, hMatch⟩
        · cases hMatch
| .seq a b, hOpens, p, follow, r, hInside, hMatch => by
    unfold match? at hMatch
    rcases match?_opens s a hOpens p _ r hInside hMatch with
      ⟨first, q, hByte, hStarts, hQ, hLt, hNext⟩
    rcases match?_advances s b q _ r hQ hNext with
      ⟨q', hQ', hLe, hFollow⟩
    exact
      ⟨first, q', hByte, hStarts, hQ', Nat.lt_of_lt_of_le hLt hLe,
        hFollow⟩
| .alt a b, hOpens, p, follow, r, hInside, hMatch => by
    unfold match? at hMatch
    unfold opens at hOpens
    rw [Bool.and_eq_true] at hOpens
    rcases orElse_eq_some hMatch with hFirst | hSecond
    · exact match?_opens s a hOpens.1 p _ r hInside hFirst
    · exact match?_opens s b hOpens.2 p _ r hInside hSecond
| .group number a, hOpens, p, follow, r, hInside, hMatch => by
    unfold match? at hMatch
    rcases match?_opens s a hOpens p _ r hInside hMatch with
      ⟨first, q, hByte, hStarts, hQ, hLt, hNext⟩
    refine
      ⟨first,
        { q with groups := (number, ⟨p.column, q.column⟩) :: q.groups },
        hByte, hStarts, ⟨hQ.column_le, ?_⟩, hLt, hNext⟩
    intro g hMember
    rcases List.mem_cons.mp hMember with rfl | hOld
    · exact ⟨Nat.le_of_lt hLt, hQ.column_le⟩
    · exact hQ.groups_le g hOld
| .atomic a, hOpens, p, follow, r, hInside, hMatch => by
    unfold match? at hMatch
    split at hMatch
    · cases hMatch
    · next q hSome =>
        rcases match?_opens s a hOpens p _ q hInside hSome with
          ⟨first, q', hByte, hStarts, hQ, hLt, hSame⟩
        cases hSame
        exact ⟨first, _, hByte, hStarts, hQ, hLt, hMatch⟩
| .run set least most greed, hOpens, p, follow, r, hInside, hMatch => by
    unfold match? at hMatch
    unfold opens at hOpens
    rw [Bool.and_eq_true, decide_eq_true_eq] at hOpens
    exact
      matchRow_opens hOpens.1 hOpens.2 most greed p follow r hInside
        hMatch

------------------------------------------------------------
-- Texts
------------------------------------------------------------

/- The texts that the node may match, if it is made of single bytes. -/
def texts? : Node → Option (List Bytes)
| .byte ⟨[(a, b)], false, false⟩ =>
    if a = b then some [[a]] else none
| .seq a b =>
    match a.texts?, b.texts? with
    | some firsts, some seconds =>
        some (firsts.flatMap (fun t => seconds.map (fun u => t ++ u)))
    | _, _ => none
| .alt a b =>
    match a.texts?, b.texts? with
    | some firsts, some seconds => some (firsts ++ seconds)
    | _, _ => none
| .group _ a => a.texts?
| _ => none

/-
  A way to match that reads one of some texts, and goes on behind
  it.
-/
def ReadsOneOf
    (s : Subject)
    (texts : List Bytes)
    (body : Point → Follow → Option Point) : Prop :=
  ∀ (p : Point) (follow : Follow) (r : Point),
    p.Inside s.line.size →
      body p follow = some r →
        ∃ q,
          q.Inside s.line.size ∧ p.column ≤ q.column ∧
            (s.line.extract p.column q.column).toList ∈ texts ∧
              follow q = some r

/- A part of a line, and the part behind it. -/
theorem extract_append_extract
    (line : Array UInt8)
    {a b c : Nat}
    (hFirst : a ≤ b)
    (hSecond : b ≤ c) :
    (line.extract a c).toList =
      (line.extract a b).toList ++ (line.extract b c).toList := by
  rw [← Array.toList_append, Array.extract_append_extract,
    Nat.min_eq_left hFirst, Nat.max_eq_right hSecond]

/- A byte that is the only one of its set. -/
theorem byte_readsOneOf
    {s : Subject}
    (b : UInt8) :
    ReadsOneOf s [[b]]
      ((Node.byte (ByteSet.single false b)).match? s) := by
  intro p follow r hInside hMatch
  unfold match? at hMatch
  split at hMatch
  · cases hMatch
  · next c hByte =>
      split at hMatch
      · next hContains =>
          have hLt : p.column < s.line.size :=
            (Array.getElem?_eq_some_iff.mp hByte).1
          have hSame : c = b := by
            have hBounds : b ≤ c ∧ c ≤ b := by
              simpa [ByteSet.contains, ByteSet.single, ByteSet.covers]
                using hContains
            exact UInt8.le_antisymm hBounds.2 hBounds.1
          have hRead :
              (s.line.extract p.column (p.column + 1)).toList = [b] := by
            rw [← hSame, Array.toList_extract, List.extract_eq_take_drop,
              Nat.add_sub_cancel_left, List.take_one, List.head?_drop,
              Array.getElem?_toList, hByte]
            rfl
          exact
            ⟨_, hInside.move hLt, Nat.le_succ _,
              List.mem_singleton.mpr hRead, hMatch⟩
      · cases hMatch

/- A node with a few texts reads one of them. -/
theorem match?_texts
    (s : Subject)
    (n : Node) :
    ∀ {texts : List Bytes},
      n.texts? = some texts → ReadsOneOf s texts (n.match? s) := by
  induction n with
  | byte set =>
      intro texts hTexts
      unfold texts? at hTexts
      split at hTexts
      · next a b hNode =>
          split at hTexts
          · next hSame =>
              cases hNode
              cases hTexts
              rw [hSame]
              exact byte_readsOneOf b
          · cases hTexts
      all_goals contradiction
  | seq a b ihA ihB =>
      intro texts hTexts p follow r hInside hMatch
      unfold texts? at hTexts
      split at hTexts
      · next firsts seconds hFirsts hSeconds =>
          cases hTexts
          unfold match? at hMatch
          rcases ihA hFirsts p _ r hInside hMatch with
            ⟨q, hQ, hLe, hFirst, hNext⟩
          rcases ihB hSeconds q _ r hQ hNext with
            ⟨q', hQ', hLe', hSecond, hFollow⟩
          refine ⟨q', hQ', Nat.le_trans hLe hLe', ?_, hFollow⟩
          rw [extract_append_extract _ hLe hLe']
          exact
            List.mem_flatMap.mpr
              ⟨_, hFirst, List.mem_map_of_mem hSecond⟩
      · cases hTexts
  | alt a b ihA ihB =>
      intro texts hTexts p follow r hInside hMatch
      unfold texts? at hTexts
      split at hTexts
      · next firsts seconds hFirsts hSeconds =>
          cases hTexts
          unfold match? at hMatch
          rcases orElse_eq_some hMatch with hFirst | hSecond
          · rcases ihA hFirsts p _ r hInside hFirst with
              ⟨q, hQ, hLe, hText, hFollow⟩
            exact
              ⟨q, hQ, hLe, List.mem_append_left _ hText, hFollow⟩
          · rcases ihB hSeconds p _ r hInside hSecond with
              ⟨q, hQ, hLe, hText, hFollow⟩
            exact
              ⟨q, hQ, hLe, List.mem_append_right _ hText, hFollow⟩
      · cases hTexts
  | group number a ih =>
      intro texts hTexts p follow r hInside hMatch
      unfold match? at hMatch
      rcases ih hTexts p _ r hInside hMatch with
        ⟨q, hQ, hLe, hText, hFollow⟩
      refine
        ⟨{ q with groups := (number, ⟨p.column, q.column⟩) :: q.groups },
          ⟨hQ.column_le, ?_⟩, hLe, hText, hFollow⟩
      intro g hMember
      rcases List.mem_cons.mp hMember with rfl | hOld
      · exact ⟨hLe, hQ.column_le⟩
      · exact hQ.groups_le g hOld
  | _ =>
      intro texts hTexts
      cases hTexts

end Node

------------------------------------------------------------
-- Patterns
------------------------------------------------------------

namespace Pattern

variable {pattern : Pattern}
variable {text : Array UInt8}
variable {column : Nat}
variable {m : Match}

/- What is found in a line is a match at some column of it. -/
theorem exists_matchAt?
    {s : Subject} :
    ∀ n column : Nat,
      column + n ≤ s.line.size + 1 →
        pattern.searchWithin s n column = some m →
          m.start ≤ s.line.size ∧
            pattern.matchAt? s m.start = some m
| 0, _, _, hSearch => by
    cases hSearch
| n + 1, column, hSize, hSearch => by
    unfold searchWithin at hSearch
    split at hSearch
    · next other hAt =>
        cases hSearch
        have hStart := (matchAt?_inside (by omega) hAt).1
        rw [hStart]
        exact ⟨by omega, hAt⟩
    · exact exists_matchAt? n (column + 1) (by omega) hSearch

/- What a search finds is a match of the root at its start. -/
theorem exists_match?_of_searchFrom?
    (hSearch : pattern.searchFrom? text column = some m) :
    ∃ p,
      (⟨m.start, []⟩ : Point).Inside text.size ∧
        pattern.root.match? ⟨text, column⟩ ⟨m.start, []⟩ some =
            some p ∧
          m.stop = p.column ∧ m.groups = p.groups := by
  have hAt :
      m.start ≤ text.size ∧
        pattern.matchAt? ⟨text, column⟩ m.start = some m := by
    by_cases hColumn : column ≤ text.size + 1
    · have hSize :
          column + (text.size + 1 - column) ≤ text.size + 1 := by
        omega
      exact exists_matchAt? _ column hSize hSearch
    · have hZero : text.size + 1 - column = 0 := by omega
      rw [searchFrom?, hZero] at hSearch
      cases hSearch
  rcases Option.map_eq_some_iff.mp hAt.2 with ⟨p, hMatch, hSame⟩
  refine ⟨p, ⟨hAt.1, by simp⟩, hMatch, ?_, ?_⟩
  · rw [← hSame]
  · rw [← hSame]

/-
  A match of a pattern that opens with a byte is not empty, and
  its first byte continues no character.
-/
theorem properties_of_opens
    (hOpens : pattern.root.opens = true)
    (hSearch : pattern.searchFrom? text column = some m) :
    m.start < m.stop ∧
      ∃ b,
        text[m.start]? = some b ∧ Utf16.isContinuation b = false := by
  rcases exists_match?_of_searchFrom? hSearch with
    ⟨p, hInside, hMatch, hStop, _⟩
  rcases
      Node.match?_opens ⟨text, column⟩ pattern.root hOpens _ _ p hInside
        hMatch with
    ⟨b, q, hByte, hStarts, _, hLt, hEnd⟩
  cases hEnd
  rw [hStop]
  exact ⟨hLt, b, hByte, hStarts⟩

/-
  Every match is covered by the group: it is the match itself, or
  the pattern is this group as a whole.
-/
def isCoveredBy (number : Nat) (pattern : Pattern) : Bool :=
  number == 0 ||
    match pattern.root with
    | .group n _ => n == number
    | _ => false

/- The group that covers a pattern has the span of the match. -/
theorem group?_of_isCoveredBy
    {number : Nat}
    (hCovered : pattern.isCoveredBy number = true)
    (hSearch : pattern.searchFrom? text column = some m) :
    m.group? number = some ⟨m.start, m.stop⟩ := by
  unfold Match.group?
  by_cases hWhole : number = 0
  · rw [if_pos hWhole]
  · rw [if_neg hWhole]
    rcases exists_match?_of_searchFrom? hSearch with
      ⟨p, hInside, hMatch, hStop, hGroups⟩
    unfold isCoveredBy at hCovered
    rw [Bool.or_eq_true, beq_iff_eq] at hCovered
    rcases hCovered with hZero | hGroup
    · exact absurd hZero hWhole
    · split at hGroup
      · next n body hRoot =>
          rw [hRoot, Node.match?] at hMatch
          rcases
              Node.match?_advances ⟨text, column⟩ body _ _ p hInside
                hMatch with
            ⟨q, _, _, hEnd⟩
          cases hEnd
          rw [hStop, hGroups]
          simp [Groups.span?, hGroup]
      · cases hGroup

/- A match of a pattern with a few texts reads one of them. -/
theorem text_mem_texts?
    {texts : List Bytes}
    (hTexts : pattern.root.texts? = some texts)
    (hSearch : pattern.searchFrom? text column = some m) :
    (text.extract m.start m.stop).toList ∈ texts := by
  rcases exists_match?_of_searchFrom? hSearch with
    ⟨p, hInside, hMatch, hStop, _⟩
  rcases
      Node.match?_texts ⟨text, column⟩ pattern.root hTexts _ _ p hInside
        hMatch with
    ⟨q, _, _, hText, hEnd⟩
  cases hEnd
  rw [hStop]
  exact hText

end Pattern

------------------------------------------------------------
-- Engines
------------------------------------------------------------

namespace Engine

/-
  What the engine finds is what is written in the pattern: it stays
  inside the line, begins with a character if the pattern opens
  with one, has the span of a group that covers the pattern, and is
  one of the texts of the pattern, if that has a few.
-/
structure FindsAsWritten (engine : Engine) : Prop where
  staysInside : engine.StaysInside
  opens :
    ∀ {pattern : Pattern} {bytes : Array UInt8} {column : Nat}
      {m : Match},
      pattern.root.opens = true →
        engine.search? pattern bytes column = some m →
          m.start < m.stop ∧
            ∃ b,
              bytes[m.start]? = some b ∧
                Utf16.isContinuation b = false
  covers :
    ∀ {number : Nat} {pattern : Pattern} {line : Array UInt8}
      {column : Nat} {m : Match},
      pattern.isCoveredBy number = true →
        engine.search? pattern line column = some m →
          m.group? number = some ⟨m.start, m.stop⟩
  reads :
    ∀ {texts : List Bytes} {pattern : Pattern}
      {line : Array UInt8} {column : Nat} {m : Match},
      pattern.root.texts? = some texts →
        engine.search? pattern line column = some m →
          (line.extract m.start m.stop).toList ∈ texts

/- The standard engine does so. -/
theorem standard_findsAsWritten : standard.FindsAsWritten where
  staysInside := standard_staysInside
  opens := Pattern.properties_of_opens
  covers := Pattern.group?_of_isCoveredBy
  reads := Pattern.text_mem_texts?

end Engine

end Marginalia

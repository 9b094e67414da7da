import Marginalia.Pattern.Search

/-
  This file proves that a search stays in its line: a match
  starts no earlier than the search, ends no earlier than it
  starts, and ends and groups lie in the line.

  Key definitions include:
    * `Point.Inside`
    * `Node.Advances`
  The main statements are:
    * `Node.match?_advances`
    * `Pattern.searchFrom?_bounds`
    * `Pattern.searchFrom?_groups`
-/

namespace Marginalia

------------------------------------------------------------
-- Points Inside a Line
------------------------------------------------------------

/- The column and all groups of a point lie in a line of this size. -/
structure Point.Inside (size : Nat) (p : Point) : Prop where
  column_le : p.column ≤ size
  groups_le :
    ∀ g ∈ p.groups, g.2.start ≤ g.2.stop ∧ g.2.stop ≤ size

namespace Point.Inside

/- Another column of the line keeps a point inside it. -/
theorem move
    {size : Nat}
    {p : Point}
    (h : p.Inside size)
    {column : Nat}
    (hColumn : column ≤ size) :
    ({ p with column := column } : Point).Inside size :=
  ⟨hColumn, h.groups_le⟩

end Point.Inside

------------------------------------------------------------
-- Ways to Match
------------------------------------------------------------

namespace Node

/-
  A way to match only goes forward: when it succeeds, what
  follows succeeded at a point inside the line and no earlier.
-/
def Advances
    (size : Nat)
    (body : Point → Follow → Option Point) : Prop :=
  ∀ (p : Point) (follow : Follow) (r : Point),
    p.Inside size →
      body p follow = some r →
        ∃ q : Point,
          q.Inside size ∧ p.column ≤ q.column ∧ follow q = some r

/- A successful first-or-second attempt is one of the two. -/
theorem orElse_eq_some
    {first : Option Point}
    {second : Unit → Option Point}
    {r : Point}
    (h : orElse first second = some r) :
    first = some r ∨ second () = some r := by
  cases first with
  | none => exact Or.inr h
  | some q => exact Or.inl h

theorem times_advances
    {size : Nat}
    {body : Point → Follow → Option Point}
    (hBody : Advances size body) :
    ∀ n : Nat, Advances size (times body n)
| 0, p, follow, r, hp, h => ⟨p, hp, Nat.le_refl _, h⟩
| n + 1, p, follow, r, hp, h => by
    obtain ⟨q, hq, hpq, h⟩ := hBody p _ r hp h
    obtain ⟨q', hq', hqq', h⟩ :=
      times_advances hBody n q follow r hq h
    exact ⟨q', hq', Nat.le_trans hpq hqq', h⟩

theorem mostFirst_advances
    {size : Nat}
    {body : Point → Follow → Option Point}
    (hBody : Advances size body) :
    ∀ n : Nat, Advances size (mostFirst body n)
| 0, p, follow, r, hp, h => ⟨p, hp, Nat.le_refl _, h⟩
| n + 1, p, follow, r, hp, h => by
    cases orElse_eq_some h with
    | inl h =>
        obtain ⟨q, hq, hpq, h⟩ := hBody p _ r hp h
        split at h
        · exact ⟨q, hq, hpq, h⟩
        · obtain ⟨q', hq', hqq', h⟩ :=
            mostFirst_advances hBody n q follow r hq h
          exact ⟨q', hq', Nat.le_trans hpq hqq', h⟩
    | inr h => exact ⟨p, hp, Nat.le_refl _, h⟩

theorem leastFirst_advances
    {size : Nat}
    {body : Point → Follow → Option Point}
    (hBody : Advances size body) :
    ∀ n : Nat, Advances size (leastFirst body n)
| 0, p, follow, r, hp, h => ⟨p, hp, Nat.le_refl _, h⟩
| n + 1, p, follow, r, hp, h => by
    cases orElse_eq_some h with
    | inl h => exact ⟨p, hp, Nat.le_refl _, h⟩
    | inr h =>
        obtain ⟨q, hq, hpq, h⟩ := hBody p _ r hp h
        split at h
        · exact ⟨q, hq, hpq, h⟩
        · obtain ⟨q', hq', hqq', h⟩ :=
            leastFirst_advances hBody n q follow r hq h
          exact ⟨q', hq', Nat.le_trans hpq hqq', h⟩

theorem optional_advances
    {s : Subject}
    {body : Point → Follow → Option Point}
    (hBody : Advances s.line.size body)
    (least : Nat)
    (most : Option Nat)
    (greed : Greed) :
    Advances s.line.size (optional s body least most greed) := by
  intro p follow r hp h
  cases greed with
  | greedy => exact mostFirst_advances hBody _ p follow r hp h
  | lazy => exact leastFirst_advances hBody _ p follow r hp h

------------------------------------------------------------
-- Rows of Bytes
------------------------------------------------------------

/- A row of bytes ends inside the line. -/
theorem add_rowLength_le
    (s : Subject)
    (set : ByteSet) :
    ∀ limit column : Nat,
      column ≤ s.line.size →
        column + s.rowLength set column limit ≤ s.line.size
| 0, column, h => by
    simpa [Subject.rowLength] using h
| limit + 1, column, h => by
    unfold Subject.rowLength
    split
    · exact h
    · next b hb =>
        split
        · have hLt : column < s.line.size :=
            (Array.getElem?_eq_some_iff.mp hb).1
          have := add_rowLength_le s set limit (column + 1) hLt
          omega
        · exact h

theorem longestFirst_advances
    {size : Nat}
    (least : Nat) :
    ∀ (n : Nat) (p : Point) (follow : Follow) (r : Point),
      p.Inside size →
        p.column + (least + n) ≤ size →
          longestFirst least n p follow = some r →
            ∃ q : Point,
              q.Inside size ∧ p.column ≤ q.column ∧
                follow q = some r
| 0, p, follow, r, hp, hSize, h =>
    ⟨_, hp.move (by omega), Nat.le_add_right _ _, h⟩
| n + 1, p, follow, r, hp, hSize, h => by
    cases orElse_eq_some h with
    | inl h => exact ⟨_, hp.move hSize, Nat.le_add_right _ _, h⟩
    | inr h =>
        exact longestFirst_advances least n p follow r hp (by omega) h

theorem shortestFirst_advances
    {size : Nat} :
    ∀ (n least : Nat) (p : Point) (follow : Follow) (r : Point),
      p.Inside size →
        p.column + (least + n) ≤ size →
          shortestFirst least n p follow = some r →
            ∃ q : Point,
              q.Inside size ∧ p.column ≤ q.column ∧
                follow q = some r
| 0, least, p, follow, r, hp, hSize, h =>
    ⟨_, hp.move (by omega), Nat.le_add_right _ _, h⟩
| n + 1, least, p, follow, r, hp, hSize, h => by
    cases orElse_eq_some h with
    | inl h =>
        exact ⟨_, hp.move (by omega), Nat.le_add_right _ _, h⟩
    | inr h =>
        exact
          shortestFirst_advances n (least + 1) p follow r hp
            (by omega) h

theorem matchRow_advances
    (s : Subject)
    (set : ByteSet)
    (least : Nat)
    (most : Option Nat)
    (greed : Greed) :
    Advances s.line.size (matchRow s set least most greed) := by
  intro p follow r hp h
  unfold matchRow at h
  have hSize :=
    add_rowLength_le s set (s.room p.column most) p.column
      hp.column_le
  dsimp only at h
  split at h
  · cases h
  · cases greed with
    | greedy =>
        exact longestFirst_advances least _ p follow r hp (by omega) h
    | lazy =>
        exact
          shortestFirst_advances _ least p follow r hp (by omega) h

------------------------------------------------------------
-- All Nodes
------------------------------------------------------------

/- Every node goes forward inside the line. -/
theorem match?_advances
    (s : Subject) :
    ∀ n : Node, Advances s.line.size (n.match? s)
| .empty, p, follow, r, hp, h => ⟨p, hp, Nat.le_refl _, h⟩
| .byte set, p, follow, r, hp, h => by
    unfold match? at h
    split at h
    · cases h
    · next b hb =>
        split at h
        · have hLt : p.column < s.line.size :=
            (Array.getElem?_eq_some_iff.mp hb).1
          exact ⟨_, hp.move hLt, Nat.le_succ _, h⟩
        · cases h
| .anchor place, p, follow, r, hp, h => by
    unfold match? at h
    split at h
    · exact ⟨p, hp, Nat.le_refl _, h⟩
    · cases h
| .seq a b, p, follow, r, hp, h => by
    unfold match? at h
    obtain ⟨q, hq, hpq, h⟩ := match?_advances s a p _ r hp h
    obtain ⟨q', hq', hqq', h⟩ := match?_advances s b q _ r hq h
    exact ⟨q', hq', Nat.le_trans hpq hqq', h⟩
| .alt a b, p, follow, r, hp, h => by
    unfold match? at h
    cases orElse_eq_some h with
    | inl h => exact match?_advances s a p _ r hp h
    | inr h => exact match?_advances s b p _ r hp h
| .group number a, p, follow, r, hp, h => by
    unfold match? at h
    obtain ⟨q, hq, hpq, h⟩ := match?_advances s a p _ r hp h
    refine
      ⟨{ q with groups := (number, ⟨p.column, q.column⟩) :: q.groups },
        ⟨hq.column_le, ?_⟩, hpq, h⟩
    intro g hg
    cases List.mem_cons.mp hg with
    | inl hEq =>
        subst hEq
        exact ⟨hpq, hq.column_le⟩
    | inr hMem => exact hq.groups_le g hMem
| .atomic a, p, follow, r, hp, h => by
    unfold match? at h
    split at h
    · cases h
    · next q hSome =>
        obtain ⟨q', hq', hpq', hEq⟩ :=
          match?_advances s a p _ q hp hSome
        obtain rfl := Option.some.inj hEq
        exact ⟨q', hq', hpq', h⟩
| .ahead true a, p, follow, r, hp, h => by
    unfold match? at h
    split at h
    · cases h
    · next q hSome =>
        obtain ⟨q', hq', _, hEq⟩ :=
          match?_advances s a p _ q hp hSome
        obtain rfl := Option.some.inj hEq
        exact ⟨_, hq'.move hp.column_le, Nat.le_refl _, h⟩
| .ahead false a, p, follow, r, hp, h => by
    unfold match? at h
    split at h
    · exact ⟨p, hp, Nat.le_refl _, h⟩
    · cases h
| .behind positive width a, p, follow, r, hp, h => by
    unfold match? at h
    dsimp only at h
    split at h
    · cases h
    · next q hSome =>
        split at hSome
        · obtain ⟨q', hq', _, hEq⟩ :=
            match?_advances s a _ _ q
              (hp.move
                (Nat.le_trans (Nat.sub_le p.column width) hp.column_le))
              hSome
          split at hEq
          · obtain rfl := Option.some.inj hEq
            exact ⟨_, hq'.move hp.column_le, Nat.le_refl _, h⟩
          · cases hEq
        · cases hSome
    · exact ⟨p, hp, Nat.le_refl _, h⟩
    · cases h
| .run set least most greed, p, follow, r, hp, h => by
    unfold match? at h
    exact matchRow_advances s set least most greed p follow r hp h
| .loop a least most greed, p, follow, r, hp, h => by
    unfold match? at h
    have hBody : Advances s.line.size (fun q f => a.match? s q f) :=
      match?_advances s a
    obtain ⟨q, hq, hpq, h⟩ :=
      times_advances hBody least p _ r hp h
    obtain ⟨q', hq', hqq', h⟩ :=
      optional_advances hBody least most greed q _ r hq h
    exact ⟨q', hq', Nat.le_trans hpq hqq', h⟩
| .again number folded, p, follow, r, hp, h => by
    unfold match? at h
    split at h
    · cases h
    · dsimp only at h
      split at h
      · next hCond =>
          exact ⟨_, hp.move hCond.1, Nat.le_add_right _ _, h⟩
      · cases h

end Node

------------------------------------------------------------
-- Searches
------------------------------------------------------------

namespace Pattern

/- A match at a column starts there and stays inside the line. -/
theorem matchAt?_inside
    {pattern : Pattern}
    {s : Subject}
    {column : Nat}
    {m : Match}
    (hColumn : column ≤ s.line.size)
    (h : pattern.matchAt? s column = some m) :
    m.start = column ∧ column ≤ m.stop ∧
      (⟨m.stop, m.groups⟩ : Point).Inside s.line.size := by
  obtain ⟨p, hp, hm⟩ := Option.map_eq_some_iff.mp h
  have hInside : (⟨column, []⟩ : Point).Inside s.line.size :=
    ⟨hColumn, by simp⟩
  obtain ⟨q, hq, hLe, hEq⟩ :=
    Node.match?_advances s pattern.root _ some p hInside hp
  cases hEq
  subst hm
  exact ⟨rfl, hLe, hq⟩

/- A match within a stretch of columns starts in that stretch. -/
theorem searchWithin_inside
    {pattern : Pattern}
    {s : Subject}
    {m : Match} :
    ∀ n column : Nat,
      column + n ≤ s.line.size + 1 →
        pattern.searchWithin s n column = some m →
          column ≤ m.start ∧ m.start ≤ m.stop ∧
            (⟨m.stop, m.groups⟩ : Point).Inside s.line.size
| 0, _, _, h => by
    cases h
| n + 1, column, hSize, h => by
    unfold searchWithin at h
    split at h
    · next m' hAt =>
        cases h
        have hm := matchAt?_inside (by omega) hAt
        exact ⟨Nat.le_of_eq hm.1.symm, hm.1 ▸ hm.2.1, hm.2.2⟩
    · have hm := searchWithin_inside n (column + 1) (by omega) h
      exact ⟨Nat.le_of_succ_le hm.1, hm.2⟩

/- A match lies in the line and starts no earlier than the search. -/
theorem searchFrom?_bounds
    {pattern : Pattern}
    {line : Array UInt8}
    {column : Nat}
    {m : Match}
    (h : pattern.searchFrom? line column = some m) :
    column ≤ m.start ∧ m.start ≤ m.stop ∧ m.stop ≤ line.size := by
  by_cases hColumn : column ≤ line.size + 1
  · have hm := searchWithin_inside _ column
      (show column + (line.size + 1 - column) ≤ line.size + 1 by omega)
      h
    exact ⟨hm.1, hm.2.1, hm.2.2.column_le⟩
  · have hZero : line.size + 1 - column = 0 := by
      omega
    rw [searchFrom?, hZero] at h
    cases h

/- The groups of a match lie in the line. -/
theorem searchFrom?_groups
    {pattern : Pattern}
    {line : Array UInt8}
    {column : Nat}
    {m : Match}
    (h : pattern.searchFrom? line column = some m) :
    ∀ g ∈ m.groups, g.2.start ≤ g.2.stop ∧ g.2.stop ≤ line.size := by
  by_cases hColumn : column ≤ line.size + 1
  · have hm := searchWithin_inside _ column
      (show column + (line.size + 1 - column) ≤ line.size + 1 by omega)
      h
    exact hm.2.2.groups_le
  · have hZero : line.size + 1 - column = 0 := by
      omega
    rw [searchFrom?, hZero] at h
    cases h

end Pattern

end Marginalia

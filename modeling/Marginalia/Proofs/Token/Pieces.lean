import Marginalia.Proofs.Token.Partition

/-
  This file describes the tokens of a line by what links each of
  them to the token before it: its start and the scopes of both.
  Lengthening a token changes no link, so pushing a part asks for
  the link of that part only.

  A coloured match is a row of such parts, which share the scopes
  that the match is coloured by.  If a single group is named and
  covers the match, there is one part.

  Key definitions include:
    * `Tokens.Linked`, `Tokens.lastScopes?`
    * `Captures.Coloured`
  The main statements are:
    * `Tokens.linked_push`
    * `Captures.linked_emit`
    * `Captures.emit_eq_push`
-/

namespace Marginalia

------------------------------------------------------------
-- Links
------------------------------------------------------------

namespace Tokens

/-
  The scopes of the last token of a line so far, or else of the
  last one before the line.
-/
def lastScopes?
    (before? : Option (List Scope))
    (tokens : List Token) : Option (List Scope) :=
  (tokens.head?.map Token.scopes).or before?

/-
  Each token, of those in reverse, is linked to the one before
  it, and the first one to what comes before the line.
-/
def Linked
    (link : Option (List Scope) → Nat → List Scope → Prop)
    (before? : Option (List Scope)) : List Token → Prop
| [] => True
| token :: rest =>
    link (lastScopes? before? rest) token.start token.scopes ∧
      Linked link before? rest

variable {link : Option (List Scope) → Nat → List Scope → Prop}
variable {before? : Option (List Scope)}
variable {tokens : List Token}
variable {start stop : Nat}
variable {scopes : List Scope}

/- The scopes of a part that is pushed are those of the last token. -/
theorem lastScopes?_push
    (hWide : start < stop) :
    lastScopes? before? (push tokens start stop scopes) =
      some scopes := by
  unfold push
  rw [if_neg (by omega)]
  cases tokens with
  | nil => rfl
  | cons last before =>
      dsimp only
      split
      · next hSame =>
          rw [← hSame.2]
          rfl
      · rfl

/- A part that is linked to the last token may be pushed. -/
theorem linked_push
    (hLinked : Linked link before? tokens)
    (hLink :
      start < stop → link (lastScopes? before? tokens) start scopes) :
    Linked link before? (push tokens start stop scopes) := by
  unfold push
  split
  · exact hLinked
  · next hWide =>
      have hHere := hLink (by omega)
      cases tokens with
      | nil => exact ⟨hHere, hLinked⟩
      | cons last before =>
          dsimp only
          split
          · exact hLinked
          · exact ⟨hHere, hLinked⟩

end Tokens

------------------------------------------------------------
-- Coloured Matches
------------------------------------------------------------

namespace Captures

open Tokens (Linked lastScopes?)

/- The scopes are some, with names of groups added to them. -/
structure Coloured
    (base : List Scope)
    (captures : CaptureNames)
    (scopes : List Scope) : Prop where
  mem_of_base : ∀ s ∈ base, s ∈ scopes
  base_or_name : ∀ s ∈ scopes, s ∈ base ∨ ∃ c ∈ captures, c.2 = s

/- A span that is put into its place is there. -/
theorem mem_insert_iff
    {span other : NamedSpan}
    (spans : List NamedSpan) :
    other ∈ NamedSpan.insert span spans ↔
      other = span ∨ other ∈ spans := by
  induction spans with
  | nil => simp [NamedSpan.insert]
  | cons first rest ih =>
      unfold NamedSpan.insert
      split
      · exact List.mem_cons
      · rw [List.mem_cons, List.mem_cons, ih]
        exact or_left_comm

/- The spans of a match are those of named groups. -/
theorem exists_of_mem_spans
    {m : Match}
    {span : NamedSpan}
    (captures : CaptureNames)
    (hSpan : span ∈ spans m captures) :
    ∃ c ∈ captures, c.2 = span.name := by
  have hMember :
      ∀ found : List NamedSpan,
        span ∈ found.foldr NamedSpan.insert [] → span ∈ found := by
    intro found
    induction found with
    | nil => exact id
    | cons first rest ih =>
        intro hIn
        rw [List.foldr_cons, mem_insert_iff] at hIn
        rcases hIn with hSame | hRest
        · rw [hSame]
          exact List.mem_cons_self
        · exact List.mem_cons_of_mem _ (ih hRest)
  rcases List.mem_filterMap.mp (hMember _ hSpan) with ⟨c, hC, hFound⟩
  refine ⟨c, hC, ?_⟩
  unfold span? at hFound
  split at hFound
  · cases hFound
  · split at hFound
    · cases hFound
    · cases hFound
      rfl

/- The scopes of a piece are those of the match and names of groups. -/
theorem coloured_scopesAt
    (m : Match)
    (base : List Scope)
    (captures : CaptureNames)
    (a b : Nat) :
    Coloured base captures
      (scopesAt base (spans m captures) a b) where
  mem_of_base := fun s hBase => List.mem_append_left _ hBase
  base_or_name := by
    intro s hScope
    rcases List.mem_append.mp hScope with hBase | hName
    · exact Or.inl hBase
    · rcases List.mem_map.mp hName with ⟨span, hSpan, rfl⟩
      exact
        Or.inr (exists_of_mem_spans captures (List.mem_filter.mp hSpan).1)

variable {link : Option (List Scope) → Nat → List Scope → Prop}
variable {before? : Option (List Scope)}
variable {tokens : List Token}
variable {base : List Scope}
variable {captures : CaptureNames}

/-
  The pieces from the cut `a` on are linked if the first one in
  the match is, and if pieces of the match are linked to each
  other.  The induction is on the cuts.
-/
theorem linked_emitPieces
    {m : Match}
    (hWide : m.start < m.stop)
    (hLater :
      ∀ {start : Nat} {older scopes : List Scope},
        Coloured base captures older →
          Coloured base captures scopes →
            link (some older) start scopes)
    (rest : List Nat) :
    ∀ {a : Nat} {tokens : List Token},
      (a :: rest).Pairwise (· < ·) →
        IsPassed (a :: rest) m.start →
          IsPassed (a :: rest) m.stop →
            Linked link before? tokens →
              (a ≤ m.start →
                ∀ {scopes : List Scope},
                  Coloured base captures scopes →
                    link (lastScopes? before? tokens) m.start scopes) →
                (m.start < a →
                  ∃ older,
                    lastScopes? before? tokens = some older ∧
                      Coloured base captures older) →
                  Linked link before?
                    (emitPieces m base (spans m captures) (a :: rest)
                      tokens) := by
  induction rest with
  | nil =>
      intro a tokens _ _ _ hLinked _ _
      exact hLinked
  | cons b rest ih =>
      intro a tokens hOrder hStart hStop hLinked hFirst hNext
      rcases List.pairwise_cons.mp hOrder with ⟨hLess, hRest⟩
      have hStep : a < b := hLess b List.mem_cons_self
      have hFrom := le_or_le_of_isPassed hOrder hStart
      have hTo := le_or_le_of_isPassed hOrder hStop
      have hColoured := coloured_scopesAt m base captures a b
      unfold emitPieces
      dsimp only
      split
      · next hOutside =>
          refine
            ih hRest (isPassed_tail hStep hStart)
              (isPassed_tail hStep hStop) hLinked ?_ ?_
          · intro hLe scopes hScopes
            exact hFirst (by omega) hScopes
          · intro hLt
            exact hNext (by omega)
      · next hInside =>
          have hLink :
              link (lastScopes? before? tokens) a
                (scopesAt base (spans m captures) a b) := by
            by_cases hHere : a ≤ m.start
            · have hSame : m.start = a := by omega
              rw [hSame] at hFirst
              exact hFirst (Nat.le_refl a) hColoured
            · rcases hNext (by omega) with ⟨older, hOlder, hOld⟩
              rw [hOlder]
              exact hLater hOld hColoured
          refine
            ih hRest (isPassed_tail hStep hStart)
              (isPassed_tail hStep hStop)
              (Tokens.linked_push hLinked (fun _ => hLink)) ?_ ?_
          · intro hLe
            omega
          · intro _
            exact ⟨_, Tokens.lastScopes?_push hStep, hColoured⟩

/-
  A coloured match is linked if each of its pieces may come first,
  and may come after any other.
-/
theorem linked_emit
    {m : Match}
    (hLinked : Linked link before? tokens)
    (hFirst :
      m.start < m.stop →
        ∀ {scopes : List Scope},
          Coloured base captures scopes →
            link (lastScopes? before? tokens) m.start scopes)
    (hLater :
      m.start < m.stop →
        ∀ {start : Nat} {older scopes : List Scope},
          Coloured base captures older →
            Coloured base captures scopes →
              link (some older) start scopes) :
    Linked link before? (emit m base captures tokens) := by
  unfold emit
  split
  · exact hLinked
  · next hWide =>
      dsimp only
      have hLt : m.start < m.stop := by omega
      rcases exists_cuts_eq m hLt (spans m captures) with
        ⟨a, rest, hCuts, hLe, hOrder, hStart, hStop⟩
      rw [hCuts]
      refine
        linked_emitPieces hLt (hLater hLt) rest hOrder hStart hStop
          hLinked (fun _ => hFirst hLt) ?_
      intro hAfter
      omega

/- A match that one named group covers is one part. -/
theorem emit_eq_push
    {m : Match}
    {number : Nat}
    {name : Bytes}
    (hCovered : m.group? number = some ⟨m.start, m.stop⟩)
    (hName : name ≠ [])
    (base : List Scope)
    (tokens : List Token) :
    emit m base [(number, name)] tokens =
      Tokens.push tokens m.start m.stop (base ++ [name]) := by
  unfold emit
  split
  · next hEmpty =>
      unfold Tokens.push
      rw [if_pos hEmpty]
  · next hWide =>
      have hSpan :
          span? m (number, name) =
            some ⟨m.start, m.stop, number, name⟩ := by
        unfold span?
        rw [hCovered]
        dsimp only
        rw [if_neg (by simp [hName]; omega)]
      have hSpans :
          spans m [(number, name)] =
            [⟨m.start, m.stop, number, name⟩] := by
        simp [spans, hSpan, NamedSpan.insert]
      have hCuts :
          cuts m [⟨m.start, m.stop, number, name⟩] =
            [m.start, m.stop] := by
        have hLt : m.start < m.stop := by omega
        simp [cuts, insertCut, hLt, Nat.not_lt_of_lt hLt,
          Nat.ne_of_gt hLt]
      dsimp only
      rw [hSpans, hCuts]
      simp [emitPieces, scopesAt, NamedSpan.holds]

end Captures

end Marginalia

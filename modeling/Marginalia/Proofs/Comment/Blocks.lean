import Mathlib.Order.Bounds.Defs
import Marginalia.Proofs.Comment.Safety
import Marginalia.Proofs.Comment.Walks

/-
  This file proves how far a block comment reaches, as a statement
  about the row of all tokens of a document.

  From the token that was found it goes back to the least index
  from which on all tokens carry the scope, and no token behind the
  first one is a begin mark.  It goes on to the greatest index up
  to which all tokens carry the scope, and no token before the last
  one is an end mark.  Lines without tokens are not in the row.

  It also proves that these are the ends that two cursors come to,
  which move from token to token and skip lines without tokens, and
  that both cursors come to an end.

  Key definitions include:
    * `Tokens.row`
    * `Tokens.ReachesBack`, `Tokens.ReachesOn`
    * `Tokens.Cursor`, `Tokens.Cursor.previous?`, `Tokens.Cursor.next?`
    * `Tokens.Cursor.walk?`
  The main statements are:
    * `Tokens.isLeast_reachesBack`
    * `Tokens.isGreatest_reachesOn`
    * `Tokens.Cursor.exists_walk?_eq_some`
    * `TokenizedDocument.ofMatch_block`
-/

namespace Marginalia

------------------------------------------------------------
-- The Row of All Tokens
------------------------------------------------------------

namespace Tokens

variable {tokens : Nat → List Token}
variable {scope : Scope}

/- All tokens of some lines in order, each with its line. -/
def row (tokens : Nat → List Token) (lineCount : Nat) : List Placed :=
  (List.range lineCount).flatMap (fun line => placed line (tokens line))

/- The row is what is above its end, the other way around. -/
theorem row_eq_reverse_above
    (lineCount : Nat) :
    row tokens lineCount = (above tokens lineCount).reverse := by
  induction lineCount with
  | zero => rfl
  | succ line ih =>
      rw [row, List.range_succ, List.flatMap_append, ← row, ih, above,
        List.reverse_append, List.reverse_reverse]
      simp

/- The row, seen from one of its tokens. -/
theorem row_eq_append
    {lineCount line index : Nat}
    {t : Token}
    (hLine : line < lineCount)
    (hToken : (tokens line)[index]? = some t) :
    row tokens lineCount =
      (before tokens line index).reverse ++
        (line, t) :: after tokens lineCount line index := by
  rw [row_eq_reverse_above, above_eq_append hLine hToken,
    List.reverse_append, List.reverse_reverse, List.reverse_cons,
    List.append_assoc, List.singleton_append]

/- As many tokens come before a token as its index in the row says. -/
theorem length_before
    {line index : Nat}
    (hIndex : index ≤ (tokens line).length) :
    (before tokens line index).length =
      (row tokens line).length + index := by
  rw [before, placed, List.length_append, List.length_map,
    List.length_reverse, List.length_take_of_le hIndex,
    row_eq_reverse_above, List.length_reverse, Nat.add_comm]

/-
  From index `i` on back to index `j` all tokens carry the scope,
  and none but the one at `j` is a begin mark.
-/
structure ReachesBack
    (row : List Placed)
    (scope : Scope)
    (i j : Nat) : Prop where
  le : j ≤ i
  carries :
    ∀ {l : Nat} {p : Placed},
      j ≤ l → l ≤ i → row[l]? = some p → p.2.carries scope = true
  isOpenMark_eq :
    ∀ {l : Nat} {p : Placed},
      j < l → l ≤ i → row[l]? = some p → p.2.isOpenMark = false

/-
  From index `i` on up to index `k` all tokens carry the scope, and
  none but the one at `k` is an end mark.
-/
structure ReachesOn
    (row : List Placed)
    (scope : Scope)
    (i k : Nat) : Prop where
  le : i ≤ k
  lt : k < row.length
  carries :
    ∀ {l : Nat} {p : Placed},
      i ≤ l → l ≤ k → row[l]? = some p → p.2.carries scope = true
  isCloseMark_eq :
    ∀ {l : Nat} {p : Placed},
      i ≤ l → l < k → row[l]? = some p → p.2.isCloseMark = false

/- Where a walk ends, by the number of its steps. -/
theorem exists_steps_of_stroll
    {stops : Token → Bool}
    {current : Placed}
    (others : List Placed)
    (hCurrent : current.2.carries scope = true) :
    ∃ steps,
      (current :: others)[steps]? =
          some (CommentSpan.stroll scope stops current others) ∧
        (∀ {e : Nat} {p : Placed},
          e ≤ steps →
            (current :: others)[e]? = some p →
              p.2.carries scope = true) ∧
        (∀ {e : Nat} {p : Placed},
          e < steps →
            (current :: others)[e]? = some p → stops p.2 = false) ∧
        ∀ {p : Placed},
          (current :: others)[steps + 1]? = some p →
            stops (CommentSpan.stroll scope stops current others).2 =
                false →
              p.2.carries scope = false := by
  rcases
      @CommentSpan.exists_of_stroll scope stops others current
        hCurrent with
    ⟨passed, rest, hRow, hPassed, hLast, hStays⟩
  refine ⟨passed.length, ?_, ?_, ?_, ?_⟩
  · rw [hRow]
    simp
  · intro e p hLe hItem
    rw [hRow] at hItem
    rcases Nat.lt_or_eq_of_le hLe with hLt | rfl
    · rw [List.getElem?_append_left hLt] at hItem
      exact (hPassed p (List.mem_of_getElem? hItem)).2
    · have hSame :
          CommentSpan.stroll scope stops current others = p := by
        simpa using hItem
      rw [← hSame]
      exact hLast
  · intro e p hLt hItem
    rw [hRow, List.getElem?_append_left hLt] at hItem
    exact (hPassed p (List.mem_of_getElem? hItem)).1
  · intro p hItem hGoesOn
    rw [hRow, List.getElem?_append_right (Nat.le_add_right _ 1),
      Nat.add_sub_cancel_left, List.getElem?_cons_succ,
      ← List.head?_eq_getElem?] at hItem
    rcases hStays p hItem with hStops | hOther
    · rw [hGoesOn] at hStops
      cases hStops
    · exact hOther

section Seen

variable {all earlier later : List Placed}
variable {current : Placed}

/- A token before the one that the row is seen from, or this one. -/
theorem getElem?_back
    {e : Nat}
    (hRow : all = earlier.reverse ++ current :: later)
    (hLe : e ≤ earlier.length) :
    all[earlier.length - e]? = (current :: earlier)[e]? := by
  have hReversed :
      all = (current :: earlier).reverse ++ later := by
    rw [hRow, List.reverse_cons, List.append_assoc,
      List.singleton_append]
  rw [hReversed, List.getElem?_append_left, List.getElem?_reverse]
  · congr 1
    rw [List.length_cons]
    omega
  · rw [List.length_cons]
    omega
  · rw [List.length_reverse, List.length_cons]
    omega

/- A token after the one that the row is seen from, or this one. -/
theorem getElem?_on
    (hRow : all = earlier.reverse ++ current :: later)
    (e : Nat) :
    all[earlier.length + e]? = (current :: later)[e]? := by
  rw [hRow, List.getElem?_append_right, List.length_reverse,
    Nat.add_sub_cancel_left]
  rw [List.length_reverse]
  exact Nat.le_add_right _ _

/- The walk back ends at the least index that can be reached. -/
theorem isLeast_reachesBack
    (hRow : all = earlier.reverse ++ current :: later)
    (hCurrent : current.2.carries scope = true) :
    ∃ j,
      all[j]? =
          some
            (CommentSpan.stroll scope Token.isOpenMark current
              earlier) ∧
        IsLeast {j | ReachesBack all scope earlier.length j} j := by
  rcases
      @exists_steps_of_stroll scope Token.isOpenMark current earlier
        hCurrent with
    ⟨steps, hLast, hCarries, hPassed, hStays⟩
  have hSteps : steps ≤ earlier.length := by
    have hLt := (List.getElem?_eq_some_iff.mp hLast).1
    rw [List.length_cons] at hLt
    exact Nat.le_of_lt_succ hLt
  -- An index of the row, as a number of steps.
  have hItem :
      ∀ {l : Nat},
        l ≤ earlier.length →
          all[l]? = (current :: earlier)[earlier.length - l]? := by
    intro l hLe
    rw [← getElem?_back hRow (Nat.sub_le _ _), Nat.sub_sub_self hLe]
  refine ⟨earlier.length - steps, ?_, ?_, ?_⟩
  · rw [getElem?_back hRow hSteps]
    exact hLast
  · constructor
    case le => exact Nat.sub_le _ _
    case carries =>
      intro l p hFrom hTo hAt
      rw [hItem hTo] at hAt
      exact hCarries (by omega) hAt
    case isOpenMark_eq =>
      intro l p hFrom hTo hAt
      rw [hItem hTo] at hAt
      exact hPassed (by omega) hAt
  · intro j hReaches
    apply Nat.le_of_not_lt
    intro hBefore
    have hNext :
        all[earlier.length - (steps + 1)]? =
          (current :: earlier)[steps + 1]? :=
      getElem?_back hRow (by omega)
    have hBound : steps + 1 < (current :: earlier).length := by
      rw [List.length_cons]
      omega
    rw [List.getElem?_eq_getElem hBound] at hNext
    have hOpen :=
      hReaches.isOpenMark_eq hBefore (Nat.sub_le _ _)
        ((getElem?_back hRow hSteps).trans hLast)
    have hOther := hStays (List.getElem?_eq_getElem hBound) hOpen
    rw [hReaches.carries (by omega) (by omega) hNext] at hOther
    cases hOther

/- The walk on ends at the greatest index that can be reached. -/
theorem isGreatest_reachesOn
    (hRow : all = earlier.reverse ++ current :: later)
    (hCurrent : current.2.carries scope = true) :
    ∃ k,
      all[k]? =
          some
            (CommentSpan.stroll scope Token.isCloseMark current
              later) ∧
        IsGreatest {k | ReachesOn all scope earlier.length k} k := by
  rcases
      @exists_steps_of_stroll scope Token.isCloseMark current later
        hCurrent with
    ⟨steps, hLast, hCarries, hPassed, hStays⟩
  have hAtLast := (getElem?_on hRow steps).trans hLast
  -- An index of the row, as a number of steps.
  have hItem :
      ∀ {l : Nat},
        earlier.length ≤ l →
          all[l]? = (current :: later)[l - earlier.length]? := by
    intro l hLe
    rw [← getElem?_on hRow, Nat.add_sub_cancel' hLe]
  refine ⟨earlier.length + steps, hAtLast, ?_, ?_⟩
  · constructor
    case le => exact Nat.le_add_right _ _
    case lt => exact (List.getElem?_eq_some_iff.mp hAtLast).1
    case carries =>
      intro l p hFrom hTo hAt
      rw [hItem hFrom] at hAt
      exact hCarries (by omega) hAt
    case isCloseMark_eq =>
      intro l p hFrom hTo hAt
      rw [hItem hFrom] at hAt
      exact hPassed (by omega) hAt
  · intro k hReaches
    apply Nat.le_of_not_lt
    intro hBehind
    have hBound : earlier.length + (steps + 1) < all.length :=
      Nat.lt_of_le_of_lt hBehind hReaches.lt
    have hNext := List.getElem?_eq_getElem hBound
    have hClose :=
      hReaches.isCloseMark_eq (Nat.le_add_right _ _) hBehind hAtLast
    have hOther :=
      hStays ((getElem?_on hRow (steps + 1)).symm.trans hNext) hClose
    rw [hReaches.carries (Nat.le_add_right _ _) hBehind hNext] at hOther
    cases hOther

end Seen

------------------------------------------------------------
-- Cursors
------------------------------------------------------------

/- The place of a token: its line, and its index there. -/
structure Cursor where
  line : Nat
  index : Nat
deriving DecidableEq, Repr

namespace Cursor

/- The token at a cursor. -/
def token (tokens : Nat → List Token) (c : Cursor) : Token :=
  (tokens c.line).getD c.index default

/- The token at a cursor, with its line. -/
def placed (tokens : Nat → List Token) (c : Cursor) : Placed :=
  (c.line, c.token tokens)

/- There is a token at the cursor. -/
def Valid
    (tokens : Nat → List Token)
    (lineCount : Nat)
    (c : Cursor) : Prop :=
  c.line < lineCount ∧ c.index < (tokens c.line).length

/- The last token of the nearest line above that has tokens. -/
def lastAbove (tokens : Nat → List Token) : Nat → Option Cursor
| 0 => none
| line + 1 =>
    if (tokens line).isEmpty then lastAbove tokens line
    else some ⟨line, (tokens line).length - 1⟩

/- The token before a cursor. -/
def previous? (tokens : Nat → List Token) (c : Cursor) : Option Cursor :=
  if 0 < c.index then some ⟨c.line, c.index - 1⟩
  else lastAbove tokens c.line

/- The first token of the nearest of some lines that has tokens. -/
def firstBeneath
    (tokens : Nat → List Token) : Nat → Nat → Option Cursor
| 0, _ => none
| remaining + 1, line =>
    if (tokens line).isEmpty then
      firstBeneath tokens remaining (line + 1)
    else some ⟨line, 0⟩

/- The token behind a cursor. -/
def next?
    (tokens : Nat → List Token)
    (lineCount : Nat)
    (c : Cursor) : Option Cursor :=
  if c.index + 1 < (tokens c.line).length then
    some ⟨c.line, c.index + 1⟩
  else firstBeneath tokens (lineCount - (c.line + 1)) (c.line + 1)

/-
  Move a cursor along tokens that carry the scope, up to one at
  which to stop.  Nothing bounds the number of moves.
-/
def walk?
    (tokens : Nat → List Token)
    (move : Cursor → Option Cursor)
    (scope : Scope)
    (stops : Token → Bool)
    (current : Cursor) : Option Cursor :=
  if stops (current.token tokens) then some current
  else
    match move current with
    | none => some current
    | some next =>
        if (next.token tokens).carries scope then
          next |>.walk? tokens move scope stops
        else some current
partial_fixpoint

/-
  A move comes to the first of the tokens on its side, and leaves
  the others on that side.  Without such tokens there is no move.
-/
inductive Comes
    (tokens : Nat → List Token)
    (lineCount : Nat)
    (side : Cursor → List Placed) :
    Option Cursor → List Placed → Prop where
| nowhere : Comes tokens lineCount side none []
| there
    (next : Cursor)
    (valid : next.Valid tokens lineCount) :
    Comes tokens lineCount side (some next)
      (next.placed tokens :: side next)

/- The tokens before a cursor, the nearest first. -/
def back (tokens : Nat → List Token) (c : Cursor) : List Placed :=
  before tokens c.line c.index

/- The tokens behind a cursor. -/
def on
    (tokens : Nat → List Token)
    (lineCount : Nat)
    (c : Cursor) : List Placed :=
  after tokens lineCount c.line c.index

variable {lineCount : Nat}

/- The token at a cursor is one of its line. -/
theorem getElem?_of_valid
    {c : Cursor}
    (hValid : c.Valid tokens lineCount) :
    (tokens c.line)[c.index]? = some (c.token tokens) := by
  rw [token, List.getD_eq_getElem?_getD,
    List.getElem?_eq_getElem hValid.2]
  rfl

/- Behind a token of a line it comes before what came before it. -/
theorem before_succ
    {line index : Nat}
    (hIndex : index < (tokens line).length) :
    before tokens line (index + 1) =
      placed tokens ⟨line, index⟩ :: back tokens ⟨line, index⟩ := by
  have hToken : (tokens line)[index]? = some (tokens line)[index] :=
    List.getElem?_eq_getElem hIndex
  rw [before, List.take_add_one, hToken, Option.toList_some,
    List.reverse_append]
  simp [placed, token, back, before, Tokens.placed, hToken]

/- All tokens of a line come before the line behind it. -/
theorem above_succ
    (line : Nat) :
    above tokens (line + 1) =
      before tokens line (tokens line).length := by
  rw [above, before, List.take_length, Tokens.placed, Tokens.placed,
    List.map_reverse]

/- The last token above a line is the nearest one. -/
theorem comes_lastAbove
    (line : Nat) :
    line ≤ lineCount →
      Comes tokens lineCount (back tokens) (lastAbove tokens line)
        (above tokens line) := by
  induction line with
  | zero =>
      intro _
      exact Comes.nowhere
  | succ line ih =>
      intro hLine
      rw [lastAbove, above_succ]
      by_cases hEmpty : (tokens line).isEmpty = true
      · have hNone := List.isEmpty_iff.mp hEmpty
        rw [if_pos hEmpty, hNone]
        exact ih (Nat.le_of_succ_le hLine)
      · have hSome : 0 < (tokens line).length := by
          rw [List.length_pos_iff, ne_eq, ← List.isEmpty_iff]
          exact hEmpty
        have hLast : (tokens line).length - 1 < (tokens line).length :=
          Nat.sub_lt hSome Nat.one_pos
        have hBefore := before_succ hLast
        rw [Nat.sub_add_cancel hSome] at hBefore
        rw [if_neg hEmpty, hBefore]
        exact Comes.there _ ⟨hLine, hLast⟩

/- Moving back comes to the nearest token before the cursor. -/
theorem comes_previous?
    {c : Cursor}
    (hValid : c.Valid tokens lineCount) :
    Comes tokens lineCount (back tokens) (c.previous? tokens)
      (c.back tokens) := by
  rcases c with ⟨line, index⟩
  cases index with
  | zero => exact comes_lastAbove line (Nat.le_of_lt hValid.1)
  | succ index =>
      have hIndex := Nat.lt_of_succ_lt hValid.2
      rw [previous?, if_pos (Nat.succ_pos index), back,
        before_succ hIndex]
      exact Comes.there ⟨line, index⟩ ⟨hValid.1, hIndex⟩

/- From a token of a line on, it comes before what is behind it. -/
theorem drop_append_beneath
    {line index : Nat}
    (hIndex : index < (tokens line).length) :
    Tokens.placed line ((tokens line).drop index) ++
        beneath tokens (lineCount - (line + 1)) (line + 1) =
      placed tokens ⟨line, index⟩ :: on tokens lineCount ⟨line, index⟩ := by
  have hToken : (tokens line)[index]? = some (tokens line)[index] :=
    List.getElem?_eq_getElem hIndex
  rw [List.drop_eq_getElem_cons hIndex, Tokens.placed, List.map_cons,
    List.cons_append, placed, token, List.getD_eq_getElem?_getD, hToken]
  rfl

/- The first token of the lines beneath is the nearest one. -/
theorem comes_firstBeneath
    (remaining : Nat) :
    ∀ {line : Nat},
      line + remaining = lineCount →
        Comes tokens lineCount (on tokens lineCount)
          (firstBeneath tokens remaining line)
          (beneath tokens remaining line) := by
  induction remaining with
  | zero =>
      intro line _
      exact Comes.nowhere
  | succ remaining ih =>
      intro line hLines
      have hRest := @ih (line + 1) (by omega)
      rw [firstBeneath, beneath]
      by_cases hEmpty : (tokens line).isEmpty = true
      · rw [if_pos hEmpty, List.isEmpty_iff.mp hEmpty]
        exact hRest
      · have hSome : 0 < (tokens line).length := by
          rw [List.length_pos_iff, ne_eq, ← List.isEmpty_iff]
          exact hEmpty
        have hCount : remaining = lineCount - (line + 1) := by omega
        have hRow := @drop_append_beneath tokens lineCount line 0 hSome
        rw [List.drop_zero, ← hCount] at hRow
        have hInside : line < lineCount := by omega
        rw [if_neg hEmpty, hRow]
        exact Comes.there _ ⟨hInside, hSome⟩

/- Moving on comes to the nearest token behind the cursor. -/
theorem comes_next?
    {c : Cursor}
    (hValid : c.Valid tokens lineCount) :
    Comes tokens lineCount (on tokens lineCount)
      (c.next? tokens lineCount) (c.on tokens lineCount) := by
  rcases c with ⟨line, index⟩
  have hLine := hValid.1
  dsimp only at hLine
  rw [next?, on, after]
  by_cases hInside : index + 1 < (tokens line).length
  · rw [if_pos hInside, drop_append_beneath hInside]
    exact Comes.there _ ⟨hLine, hInside⟩
  · rw [if_neg hInside, List.drop_of_length_le (Nat.le_of_not_lt hInside)]
    exact comes_firstBeneath _ (Nat.add_sub_cancel' hLine)

/- A cursor that cannot move has come to its end. -/
theorem walk?_of_move_eq_none
    {move : Cursor → Option Cursor}
    {stops : Token → Bool}
    {c : Cursor}
    (hMove : move c = none) :
    walk? tokens move scope stops c = some c := by
  rw [walk?, hMove]
  split <;> rfl

/- A cursor that can move goes on where the walk over tokens does. -/
theorem walk?_of_move_eq_some
    {move : Cursor → Option Cursor}
    {stops : Token → Bool}
    {c next : Cursor}
    (hMove : move c = some next) :
    walk? tokens move scope stops c =
      if stops (c.token tokens) = false ∧
          (next.token tokens).carries scope = true then
        walk? tokens move scope stops next
      else some c := by
  rw [walk?, hMove]
  cases stops (c.token tokens) <;> simp

/-
  A cursor comes to an end, and to where the walk over the tokens on
  its side does.  The induction is on these tokens.
-/
theorem exists_walk?_eq_some
    {move : Cursor → Option Cursor}
    {side : Cursor → List Placed}
    {stops : Token → Bool}
    (hMoves :
      ∀ c : Cursor,
        c.Valid tokens lineCount →
          Comes tokens lineCount side (move c) (side c))
    (others : List Placed) :
    ∀ {c : Cursor},
      c.Valid tokens lineCount →
        side c = others →
          ∃ last,
            walk? tokens move scope stops c = some last ∧
              last.Valid tokens lineCount ∧
                last.placed tokens =
                  CommentSpan.stroll scope stops (c.placed tokens)
                    others := by
  induction others with
  | nil =>
      intro c hValid hSide
      have hComes := hMoves c hValid
      rw [hSide] at hComes
      generalize hMove : move c = moved at hComes
      cases hComes with
      | nowhere =>
          exact ⟨c, walk?_of_move_eq_none hMove, hValid, rfl⟩
  | cons p others ih =>
      intro c hValid hSide
      have hComes := hMoves c hValid
      rw [hSide] at hComes
      generalize hMove : move c = moved at hComes
      cases hComes with
      | there next hNext =>
          have hStep :
              CommentSpan.stroll scope stops (c.placed tokens)
                  (next.placed tokens :: side next) =
                if stops (c.token tokens) = false ∧
                    (next.token tokens).carries scope = true then
                  CommentSpan.stroll scope stops (next.placed tokens)
                    (side next)
                else c.placed tokens := by
            rw [CommentSpan.stroll]
            simp [placed]
          rw [walk?_of_move_eq_some hMove, hStep]
          split
          · exact ih hNext rfl
          · exact ⟨c, rfl, hValid, rfl⟩

end Cursor

end Tokens

------------------------------------------------------------
-- Block Comments
------------------------------------------------------------

/-
  For every grammar and document, however much of it is tokenized,
  and for every token with the scope of a block comment: cursors
  that walk back and on from the token come to an end, the comment
  goes from the start of the one token to the stop of the other,
  and in the row of all tokens these are the least index back to
  which the comment reaches and the greatest one it reaches on to.
-/
theorem TokenizedDocument.ofMatch_block
    {grammar : Grammar}
    {document : Document}
    {maxLength : Nat}
    {m : CommentMatch}
    {token : Token}
    (hLine : m.line < (create grammar document maxLength).lines.size)
    (hToken :
      ((create grammar document maxLength).tokensAt
          m.line)[m.tokenIndex]? =
        some token)
    (hCarries : token.carries m.scope = true)
    (hBlock : m.scope.isLineComment = false)
    (policy? : Option Indentation)
    (n : Nat) :
    let fresh := create grammar document maxLength
    let tokens := fresh.tokensAt
    let row := Tokens.row tokens fresh.lines.size
    let index := (Tokens.row tokens m.line).length + m.tokenIndex
    let found : Tokens.Cursor := ⟨m.line, m.tokenIndex⟩
    ∃ first last j k,
      found.walk? tokens (Tokens.Cursor.previous? tokens) m.scope
            Token.isOpenMark =
          some first ∧
        found.walk? tokens
            (Tokens.Cursor.next? tokens fresh.lines.size) m.scope
            Token.isCloseMark =
          some last ∧
        (answer (CommentSpan.ofMatch fresh.lines m policy?)
            (fresh.extend n)).1 =
          ⟨first.line, (first.token tokens).start, last.line,
            (last.token tokens).stop⟩ ∧
        row[index]? = some (m.line, token) ∧
        row[j]? = some (first.placed tokens) ∧
        IsLeast {j | Tokens.ReachesBack row m.scope index j} j ∧
        row[k]? = some (last.placed tokens) ∧
        IsGreatest {k | Tokens.ReachesOn row m.scope index k} k := by
  intro fresh tokens row index found
  have hIndex := (List.getElem?_eq_some_iff.mp hToken).1
  have hValid : found.Valid tokens fresh.lines.size := ⟨hLine, hIndex⟩
  have hFound : found.placed tokens = (m.line, token) := by
    have hAt := Tokens.Cursor.getElem?_of_valid hValid
    rw [Tokens.Cursor.placed, ← Option.some.inj (hToken.symm.trans hAt)]
  have hRow := Tokens.row_eq_append hLine hToken
  have hLength :
      (Tokens.before tokens m.line m.tokenIndex).length = index :=
    Tokens.length_before (Nat.le_of_lt hIndex)
  rcases
      @Tokens.Cursor.exists_walk?_eq_some tokens m.scope
        fresh.lines.size _ _ Token.isOpenMark
        (fun _ => Tokens.Cursor.comes_previous?) _ found hValid rfl with
    ⟨first, hWalkBack, _, hFirst⟩
  rcases
      @Tokens.Cursor.exists_walk?_eq_some tokens m.scope
        fresh.lines.size _ _ Token.isCloseMark
        (fun _ => Tokens.Cursor.comes_next?) _ found hValid rfl with
    ⟨last, hWalkOn, _, hLast⟩
  rw [hFound] at hFirst hLast
  rcases Tokens.isLeast_reachesBack hRow hCarries with ⟨j, hJ, hLeast⟩
  rcases Tokens.isGreatest_reachesOn hRow hCarries with
    ⟨k, hK, hGreatest⟩
  rw [hLength] at hLeast hGreatest
  refine
    ⟨first, last, j, k, hWalkBack, hWalkOn, ?_, ?_, ?_, hLeast, ?_,
      hGreatest⟩
  · rcases
        answer_extend (fresh_create grammar document maxLength)
          (CommentSpan.ofMatch fresh.lines m policy?) n with
      ⟨_, hAnswer⟩
    rw [hAnswer, CommentSpan.ofMatch,
      if_neg (by rw [hBlock]; exact Bool.false_ne_true),
      CommentSpan.eval_ofBlock_eq hToken]
    unfold CommentSpan.between
    change
      _ =
        CommentSpan.mk (first.placed tokens).1
          (first.placed tokens).2.start (last.placed tokens).1
          (last.placed tokens).2.stop
    rw [hFirst, hLast]
    rfl
  · rw [← hLength]
    exact (Tokens.getElem?_on hRow 0).trans rfl
  · rw [hFirst]
    exact hJ
  · rw [hLast]
    exact hK

/- A grammar of comments between two marks. -/
def Grammar.markedComments : Grammar :=
  { engine := .standard
    scopeName := utf8 "source.marked"
    rules :=
      #[{ name := []
          contentName := []
          body := .container
          patterns := [1]
          candidates := [1] },
        { name := utf8 "comment.block"
          contentName := []
          body :=
            .region (Pattern.compile? (utf8 "/\\*"))
              [(0, utf8 "punctuation.definition.comment.begin")]
              (utf8 "\\*/")
              (.fixed (Pattern.compile? (utf8 "\\*/")))
              [(0, utf8 "punctuation.definition.comment.end")] false
          patterns := []
          candidates := [] }] }

/-
  Two comments that touch.  The second one is found by its last
  line, before which a line is empty, and does not reach into the
  first one.
-/
theorem TokenizedDocument.ofMatch_block_adjacent :
    let document : Document :=
      ⟨utf8 "file:///a", utf8 "marked", 1, utf8 "/*a*//*b\n\nc*/ d"⟩
    let fresh := create Grammar.markedComments document 0
    let tokens := fresh.tokensAt
    let found : Tokens.Cursor := ⟨2, 0⟩
    let scope := utf8 "comment.block"
    (answer
          (CommentSpan.ofMatch fresh.lines ⟨2, 0, scope, .exact⟩ none)
          (fresh.extend 1)).1 =
        ⟨0, 5, 2, 3⟩ ∧
      ∃ first last,
        found.walk? tokens (Tokens.Cursor.previous? tokens) scope
              Token.isOpenMark =
            some first ∧
          found.walk? tokens
              (Tokens.Cursor.next? tokens fresh.lines.size) scope
              Token.isCloseMark =
            some last ∧
          (first.line, (first.token tokens).start) = (0, 5) ∧
          (last.line, (last.token tokens).stop) = (2, 3) := by
  intro document fresh tokens found scope
  have hComputed :
      (extendWithin? 9 fresh.lines.size fresh).map
          (fun d =>
            ((d.tokensIn 2)[0]?,
              (CommentSpan.ofMatch fresh.lines ⟨2, 0, scope, .exact⟩
                none).eval d.tokensIn)) =
        some
          (some ⟨0, 1, [utf8 "source.marked", scope]⟩,
            ⟨0, 5, 2, 3⟩) := by
    decide +kernel
  rcases Option.map_eq_some_iff.mp hComputed with
    ⟨final, hExtend, hBoth⟩
  have hFresh := fresh_create Grammar.markedComments document 0
  have hTokens : tokens = final.tokensIn := by
    rw [← extend_of_extendWithin? _ hExtend]
    exact tokensAt_eq_tokensIn hFresh
  have hToken :
      (tokens 2)[0]? =
        some ⟨0, 1, [utf8 "source.marked", scope]⟩ := by
    rw [hTokens]
    exact congrArg Prod.fst hBoth
  have hSpan :
      (answer
          (CommentSpan.ofMatch fresh.lines ⟨2, 0, scope, .exact⟩ none)
          (fresh.extend 1)).1 =
        ⟨0, 5, 2, 3⟩ := by
    rw [answer_of_extendWithin? hFresh hExtend]
    exact congrArg Prod.snd hBoth
  rcases
      @ofMatch_block Grammar.markedComments document 0
        ⟨2, 0, scope, .exact⟩ _ (by decide) hToken (by decide)
        (by decide) none 1 with
    ⟨first, last, _, _, hBack, hOn, hEnds, _⟩
  rw [hSpan, CommentSpan.mk.injEq] at hEnds
  rcases hEnds with ⟨hStartLine, hStart, hStopLine, hStop⟩
  exact
    ⟨hSpan, first, last, hBack, hOn,
      Prod.ext hStartLine.symm hStart.symm,
      Prod.ext hStopLine.symm hStop.symm⟩

end Marginalia

import Mathlib.Data.List.Nodup
import Marginalia.Proofs.Comment.Spans

/-
  This file looks at the walks that find the two ends of a block
  comment as walks over all tokens of a document, in one row and
  each with its line.  A token is seen with the tokens before it,
  the nearest first, and those after it.

  It proves that the walks that start from the first token of a
  span come to the same two ends, as long as the way down does
  not meet an end mark.  It does not, if no token of the comment
  comes after an end mark without being a begin mark.

  Key definitions include:
    * `Tokens.Placed`, `Tokens.placed`
    * `Tokens.above`, `Tokens.beneath`
    * `CommentSpan.stroll`, `CommentSpan.between`
    * `Tokens.Parts`, `Tokens.Parted`
  The main statements are:
    * `CommentSpan.eval_ofBlock_eq`
    * `CommentSpan.between_first`
    * `CommentSpan.exists_first_of_ofBlock`
-/

namespace Marginalia

------------------------------------------------------------
-- The Row of All Tokens
------------------------------------------------------------

namespace Tokens

/- A token with its line. -/
abbrev Placed :=
  Nat × Token

/- Some tokens of a line, with the line. -/
def placed (line : Nat) (ts : List Token) : List Placed :=
  ts.map (fun t => (line, t))

/- The tokens of the lines before a line, the nearest first. -/
def above (tokens : Nat → List Token) : Nat → List Placed
| 0 => []
| line + 1 => (placed line (tokens line)).reverse ++ above tokens line

/- The tokens of the next `remaining` lines. -/
def beneath (tokens : Nat → List Token) : Nat → Nat → List Placed
| 0, _ => []
| remaining + 1, line =>
    placed line (tokens line) ++ beneath tokens remaining (line + 1)

variable {tokens : Nat → List Token}

/- The tokens of the next lines come before those of the lines above. -/
theorem above_add
    (remaining : Nat) :
    ∀ line : Nat,
      above tokens (line + remaining) =
        (beneath tokens remaining line).reverse ++ above tokens line := by
  induction remaining with
  | zero =>
      intro line
      rfl
  | succ remaining ih =>
      intro line
      rw [Nat.add_succ, ← Nat.succ_add, ih, beneath, above,
        List.reverse_append, List.append_assoc]

/- A token above a line is one of some line before it. -/
theorem mem_above_iff
    {p : Placed}
    (line : Nat) :
    p ∈ above tokens line ↔ p.1 < line ∧ p.2 ∈ tokens p.1 := by
  induction line with
  | zero =>
      constructor
      · intro hMember
        cases hMember
      · intro hBoth
        exact absurd hBoth.1 (Nat.not_lt_zero _)
  | succ line ih =>
      rw [above, List.mem_append, List.mem_reverse, placed, List.mem_map,
        ih]
      constructor
      · rintro (⟨t, hToken, rfl⟩ | ⟨hLine, hToken⟩)
        · exact ⟨Nat.lt_succ_self line, hToken⟩
        · exact ⟨Nat.lt_succ_of_lt hLine, hToken⟩
      · rintro ⟨hLine, hToken⟩
        rcases Nat.lt_succ_iff_lt_or_eq.mp hLine with hBefore | hSame
        · exact Or.inr ⟨hBefore, hToken⟩
        · refine Or.inl ⟨p.2, ?_, ?_⟩
          · rw [← hSame]
            exact hToken
          · rw [← hSame]

/- No token of a line is there twice. -/
theorem nodup_of_partition
    {length : Nat}
    {ts : List Token}
    (hPartition : Partition length ts) :
    ts.Nodup := by
  refine
    List.Pairwise.imp_of_mem ?_ (pairwise_of_partition hPartition)
  intro a b hFirst _ hOrder hSame
  have hWide := hPartition.start_lt_stop a hFirst
  rw [← hSame] at hOrder
  omega

/- No token of a document is there twice. -/
theorem nodup_above
    {lines : Array Bytes}
    (hTokens : Partitioned lines tokens)
    (line : Nat) :
    line ≤ lines.size → (above tokens line).Nodup := by
  induction line with
  | zero =>
      intro _
      exact List.nodup_nil
  | succ line ih =>
      intro hLines
      rw [above, List.nodup_append]
      refine ⟨?_, ih (Nat.le_of_succ_le hLines), ?_⟩
      · rw [List.nodup_reverse]
        exact
          List.Nodup.map (fun a b hSame => congrArg Prod.snd hSame)
            (nodup_of_partition (hTokens line hLines))
      · intro a hHere b hThere hSame
        rcases List.mem_map.mp (List.mem_reverse.mp hHere) with
          ⟨t, _, rfl⟩
        have hBefore := ((mem_above_iff line).mp hThere).1
        rw [← hSame] at hBefore
        exact absurd hBefore (Nat.lt_irrefl line)

/- The tokens before a token of a line, the nearest first. -/
def before
    (tokens : Nat → List Token)
    (line index : Nat) : List Placed :=
  placed line ((tokens line).take index).reverse ++ above tokens line

/- The tokens after a token of a line, up to a number of lines. -/
def after
    (tokens : Nat → List Token)
    (lineCount line index : Nat) : List Placed :=
  placed line ((tokens line).drop (index + 1)) ++
    beneath tokens (lineCount - (line + 1)) (line + 1)

/- The row of all tokens, seen from one of them. -/
theorem above_eq_append
    {lineCount line index : Nat}
    {t : Token}
    (hLine : line < lineCount)
    (hToken : (tokens line)[index]? = some t) :
    above tokens lineCount =
      (after tokens lineCount line index).reverse ++
        (line, t) :: before tokens line index := by
  have hSplit :
      tokens line =
        (tokens line).take index ++
          t :: (tokens line).drop (index + 1) := by
    rcases List.getElem?_eq_some_iff.mp hToken with ⟨hIndex, rfl⟩
    rw [← List.drop_eq_getElem_cons hIndex, List.take_append_drop]
  have hRow :
      (placed line (tokens line)).reverse =
        (placed line ((tokens line).drop (index + 1))).reverse ++
          (line, t) :: placed line ((tokens line).take index).reverse := by
    conv => lhs; rw [hSplit]
    simp [placed]
  have hCount : lineCount = line + 1 + (lineCount - (line + 1)) := by
    omega
  conv => lhs; rw [hCount]
  rw [above_add, above, hRow, after, before, List.reverse_append]
  simp only [List.append_assoc, List.cons_append]

/-
  The row of all tokens is seen from a token in one way only.
-/
theorem sides_eq_of_above_eq
    {lines : Array Bytes}
    {line index : Nat}
    {t : Token}
    {later earlier : List Placed}
    (hTokens : Partitioned lines tokens)
    (hLine : line < lines.size)
    (hToken : (tokens line)[index]? = some t)
    (hRow :
      above tokens lines.size = later.reverse ++ (line, t) :: earlier) :
    before tokens line index = earlier ∧
      after tokens lines.size line index = later := by
  have hNodup := nodup_above hTokens lines.size (Nat.le_refl _)
  rw [hRow, List.nodup_middle] at hNodup
  have hNotIn := (List.nodup_cons.mp hNodup).1
  rw [List.mem_append, not_or] at hNotIn
  rw [above_eq_append hLine hToken] at hRow
  rcases
      (List.append_cons_inj_of_notMem hNotIn.1 hNotIn.2).mp hRow.symm with
    ⟨hLater, _, hEarlier⟩
  exact ⟨hEarlier.symm, List.reverse_injective hLater.symm⟩

end Tokens

------------------------------------------------------------
-- Walks over the Row
------------------------------------------------------------

namespace CommentSpan

open Tokens

/-
  Walk along placed tokens while they carry the scope, up to one
  at which to stop.
-/
def stroll
    (scope : Scope)
    (stops : Token → Bool)
    (current : Placed) : List Placed → Placed
| [] => current
| next :: rest =>
    if !stops current.2 && next.2.carries scope then
      stroll scope stops next rest
    else current

variable {scope : Scope}
variable {stops : Token → Bool}
variable {tokens : Nat → List Token}

/- A walk that may go on has not come to a token to stop at. -/
theorem stops_eq_false_of_walk
    (rest : List Token) :
    ∀ {current : Token},
      (walk scope stops current rest).2 = true →
        stops (walk scope stops current rest).1 = false := by
  induction rest with
  | nil =>
      intro current hGoesOn
      simpa [walk] using hGoesOn
  | cons next rest ih =>
      intro current hGoesOn
      unfold walk at hGoesOn ⊢
      split at hGoesOn
      · next hNext =>
          rw [if_pos hNext]
          exact ih hGoesOn
      · cases hGoesOn

/- A walk over the row begins with a walk in its line. -/
theorem stroll_placed
    (line : Nat)
    (others : List Placed)
    (ts : List Token) :
    ∀ current : Token,
      stroll scope stops (line, current) (placed line ts ++ others) =
        if (walk scope stops current ts).2 then
          stroll scope stops (line, (walk scope stops current ts).1)
            others
        else (line, (walk scope stops current ts).1) := by
  induction ts with
  | nil =>
      intro current
      rw [placed, List.map_nil, List.nil_append, walk]
      cases hStops : stops current with
      | false => rfl
      | true =>
          cases others with
          | nil => rfl
          | cons next rest =>
              rw [stroll, if_neg (by simp [hStops])]
              rfl
  | cons next ts ih =>
      intro current
      rw [placed, List.map_cons, List.cons_append, stroll, walk]
      split
      · exact ih next
      · rfl

/- Walking up through the lines is walking over the row. -/
theorem eval_walkUp_eq
    (line : Nat) :
    ∀ {current : Placed},
      current.2.isOpenMark = false →
        (walkUp scope line (current.1, current.2.start)).eval tokens =
          ((stroll scope Token.isOpenMark current (above tokens line)).1,
            (stroll scope Token.isOpenMark current
              (above tokens line)).2.start) := by
  induction line with
  | zero =>
      intro current _
      rfl
  | succ line ih =>
      intro current hOpen
      rw [walkUp, TokenQuery.eval_bind, TokenQuery.eval_tokensOf, above,
        placed, ← List.map_reverse]
      cases (tokens line).reverse with
      | nil => exact ih hOpen
      | cons token before =>
          rw [List.map_cons, List.cons_append, stroll]
          dsimp only
          cases hCarries : token.carries scope with
          | false => simp
          | true =>
              have hRow :=
                @stroll_placed scope Token.isOpenMark line
                  (above tokens line) before token
              unfold placed at hRow
              rw [if_pos rfl, hOpen, Bool.not_false, Bool.and_self,
                if_pos rfl, hRow]
              cases hWalk :
                  (walk scope Token.isOpenMark token before).2 with
              | false => simp
              | true =>
                  rw [if_pos rfl, if_pos rfl]
                  exact
                    @ih (line, (walk scope Token.isOpenMark token before).1)
                      (stops_eq_false_of_walk before hWalk)

/- Walking down through the lines is walking over the row. -/
theorem eval_walkDown_eq
    (remaining : Nat) :
    ∀ (line : Nat) {current : Placed},
      current.2.isCloseMark = false →
        (walkDown scope remaining line
            (current.1, current.2.stop)).eval tokens =
          ((stroll scope Token.isCloseMark current
              (beneath tokens remaining line)).1,
            (stroll scope Token.isCloseMark current
              (beneath tokens remaining line)).2.stop) := by
  induction remaining with
  | zero =>
      intro line current _
      rfl
  | succ remaining ih =>
      intro line current hClose
      rw [walkDown, TokenQuery.eval_bind, TokenQuery.eval_tokensOf,
        beneath, placed]
      cases tokens line with
      | nil => exact ih (line + 1) hClose
      | cons token after =>
          rw [List.map_cons, List.cons_append, stroll]
          dsimp only
          cases hCarries : token.carries scope with
          | false => simp
          | true =>
              have hRow :=
                @stroll_placed scope Token.isCloseMark line
                  (beneath tokens remaining (line + 1)) after token
              unfold placed at hRow
              rw [if_pos rfl, hClose, Bool.not_false, Bool.and_self,
                if_pos rfl, hRow]
              cases hWalk :
                  (walk scope Token.isCloseMark token after).2 with
              | false => simp
              | true =>
                  rw [if_pos rfl, if_pos rfl]
                  exact
                    @ih (line + 1)
                      (line, (walk scope Token.isCloseMark token after).1)
                      (stops_eq_false_of_walk after hWalk)

/- The span between the ends of the two walks from a token. -/
def between
    (scope : Scope)
    (current : Placed)
    (before after : List Placed) : CommentSpan :=
  let first := stroll scope Token.isOpenMark current before
  let last := stroll scope Token.isCloseMark current after
  ⟨first.1, first.2.start, last.1, last.2.stop⟩

/- The extent of a block comment is found by walks over the row. -/
theorem eval_ofBlock_eq
    {lineCount : Nat}
    {m : CommentMatch}
    {token : Token}
    (hToken : (tokens m.line)[m.tokenIndex]? = some token) :
    (ofBlock lineCount m).eval tokens =
      between m.scope (m.line, token)
        (Tokens.before tokens m.line m.tokenIndex)
        (Tokens.after tokens lineCount m.line m.tokenIndex) := by
  have hDefault :
      (tokens m.line).getD m.tokenIndex default = token := by
    rw [List.getD_eq_getElem?_getD, hToken]
    rfl
  have hUp :=
    @stroll_placed m.scope Token.isOpenMark m.line (above tokens m.line)
      ((tokens m.line).take m.tokenIndex).reverse token
  have hDown :=
    @stroll_placed m.scope Token.isCloseMark m.line
      (beneath tokens (lineCount - (m.line + 1)) (m.line + 1))
      ((tokens m.line).drop (m.tokenIndex + 1)) token
  unfold ofBlock between Tokens.before Tokens.after
  rw [hUp, hDown]
  simp only [TokenQuery.eval_bind, TokenQuery.eval_tokensOf, hDefault]
  cases hGoesUp :
      (walk m.scope Token.isOpenMark token
        ((tokens m.line).take m.tokenIndex).reverse).2 with
  | false =>
      cases hGoesDown :
          (walk m.scope Token.isCloseMark token
            ((tokens m.line).drop (m.tokenIndex + 1))).2 with
      | false => rfl
      | true =>
          have hRest :=
            @eval_walkDown_eq m.scope tokens
              (lineCount - (m.line + 1)) (m.line + 1)
              (m.line, (walk m.scope Token.isCloseMark token
                ((tokens m.line).drop (m.tokenIndex + 1))).1)
              (stops_eq_false_of_walk _ hGoesDown)
          simp [hRest]
  | true =>
      have hFirst :=
        @eval_walkUp_eq m.scope tokens m.line
          (m.line, (walk m.scope Token.isOpenMark token
            ((tokens m.line).take m.tokenIndex).reverse).1)
          (stops_eq_false_of_walk _ hGoesUp)
      cases hGoesDown :
          (walk m.scope Token.isCloseMark token
            ((tokens m.line).drop (m.tokenIndex + 1))).2 with
      | false => simp [hFirst]
      | true =>
          have hRest :=
            @eval_walkDown_eq m.scope tokens
              (lineCount - (m.line + 1)) (m.line + 1)
              (m.line, (walk m.scope Token.isCloseMark token
                ((tokens m.line).drop (m.tokenIndex + 1))).1)
              (stops_eq_false_of_walk _ hGoesDown)
          simp [hFirst, hRest]

------------------------------------------------------------
-- Walking from the First Token
------------------------------------------------------------

/- A walk ends where it stops, or where the next token is another one's. -/
def StaysAt
    (scope : Scope)
    (stops : Token → Bool)
    (last : Placed)
    (rest : List Placed) : Prop :=
  ∀ next ∈ rest.head?,
    stops last.2 = true ∨ next.2.carries scope = false

/- From where a walk ends it would not go on. -/
theorem stroll_of_staysAt
    {last : Placed}
    {rest : List Placed}
    (hStays : StaysAt scope stops last rest) :
    stroll scope stops last rest = last := by
  cases rest with
  | nil => rfl
  | cons next rest =>
      have hEnd := hStays next rfl
      unfold stroll
      rw [if_neg]
      intro hOn
      rw [Bool.and_eq_true, Bool.not_eq_true'] at hOn
      rcases hEnd with hStops | hOther
      · rw [hOn.1] at hStops
        cases hStops
      · rw [hOn.2] at hOther
        cases hOther

/-
  Where a walk over the row ends: all tokens that it leaves behind
  are none to stop at, and carry the scope like its first one.
-/
theorem exists_of_stroll
    (row : List Placed) :
    ∀ {current : Placed},
      current.2.carries scope = true →
        ∃ passed rest,
          current :: row =
              passed ++ stroll scope stops current row :: rest ∧
            (∀ p ∈ passed,
                stops p.2 = false ∧ p.2.carries scope = true) ∧
              (stroll scope stops current row).2.carries scope = true ∧
                StaysAt scope stops (stroll scope stops current row)
                  rest := by
  induction row with
  | nil =>
      intro current hCurrent
      refine ⟨[], [], rfl, ?_, hCurrent, ?_⟩
      · intro p hMember
        cases hMember
      · intro next hNext
        cases hNext
  | cons next row ih =>
      intro current hCurrent
      by_cases hNext :
          (!stops current.2 && next.2.carries scope) = true
      · have hOn :
            stroll scope stops current (next :: row) =
              stroll scope stops next row := by
          rw [stroll, if_pos hNext]
        rw [Bool.and_eq_true, Bool.not_eq_true'] at hNext
        rcases ih hNext.2 with ⟨passed, rest, hRow, hPassed, hLast⟩
        rw [hOn]
        refine ⟨current :: passed, rest, ?_, ?_, hLast⟩
        · rw [hRow, List.cons_append]
        · intro p hMember
          rcases List.mem_cons.mp hMember with rfl | hLater
          · exact ⟨hNext.1, hCurrent⟩
          · exact hPassed p hLater
      · have hHere :
            stroll scope stops current (next :: row) = current := by
          rw [stroll, if_neg hNext]
        rw [hHere]
        refine ⟨[], next :: row, rfl, ?_, hCurrent, ?_⟩
        · intro p hMember
          cases hMember
        · intro other hOther
          cases hOther
          rw [Bool.and_eq_true, Bool.not_eq_true', not_and_or,
            Bool.not_eq_false, Bool.not_eq_true] at hNext
          exact hNext

/- A walk passes tokens that carry the scope and do not stop it. -/
theorem stroll_append
    {next : Placed}
    (rest : List Placed)
    (hNext : next.2.carries scope = true)
    (passed : List Placed) :
    ∀ {current : Placed},
      stops current.2 = false →
        (∀ p ∈ passed,
            stops p.2 = false ∧ p.2.carries scope = true) →
          stroll scope stops current (passed ++ next :: rest) =
            stroll scope stops next rest := by
  induction passed with
  | nil =>
      intro current hCurrent _
      rw [List.nil_append, stroll, if_pos (by simp [hCurrent, hNext])]
  | cons p passed ih =>
      intro current hCurrent hPassed
      have hFirst := hPassed p List.mem_cons_self
      rw [List.cons_append, stroll,
        if_pos (by simp [hCurrent, hFirst.2])]
      exact
        ih hFirst.1
          (fun q hMember => hPassed q (List.mem_cons_of_mem _ hMember))

end CommentSpan

namespace Tokens

/-
  A token that comes right after an end mark of a block comment,
  and belongs to such a comment itself, is a begin mark.
-/
def Parts (newer older : Placed) : Prop :=
  ∀ scope : Scope,
    scope.isLineComment = false →
      newer.2.carries scope = true →
        older.2.carries scope = true →
          older.2.isCloseMark = true → newer.2.isOpenMark = true

/- No two block comments touch without a begin mark between them. -/
def Parted (tokens : Nat → List Token) (lineCount : Nat) : Prop :=
  (above tokens lineCount).IsChain Parts

/-
  Up to the first begin mark no end mark comes before a token of
  the comment.  The induction is on the tokens in between.
-/
theorem isCloseMark_eq_false_of_parts
    {scope : Scope}
    {first : Placed}
    {rest : List Placed}
    (hBlock : scope.isLineComment = false)
    (hFirst : first.2.carries scope = true)
    (passed : List Placed) :
    ∀ {current : Placed},
      (current :: (passed ++ first :: rest)).IsChain Parts →
        (∀ p ∈ current :: passed,
            p.2.isOpenMark = false ∧ p.2.carries scope = true) →
          ∀ p ∈ passed ++ [first], p.2.isCloseMark = false := by
  induction passed with
  | nil =>
      intro current hChain hPassed p hMember
      rw [List.nil_append, List.isChain_cons_cons] at hChain
      rw [List.nil_append, List.mem_singleton] at hMember
      rw [hMember]
      have hCurrent := hPassed current List.mem_cons_self
      cases hClose : first.2.isCloseMark with
      | false => rfl
      | true =>
          have hOpen := hChain.1 scope hBlock hCurrent.2 hFirst hClose
          rw [hCurrent.1] at hOpen
          cases hOpen
  | cons next passed ih =>
      intro current hChain hPassed p hMember
      rw [List.cons_append, List.isChain_cons_cons] at hChain
      have hCurrent := hPassed current List.mem_cons_self
      have hNext :=
        hPassed next (List.mem_cons_of_mem _ List.mem_cons_self)
      rcases List.mem_cons.mp hMember with rfl | hLater
      · cases hClose : p.2.isCloseMark with
        | false => rfl
        | true =>
            have hOpen :=
              hChain.1 scope hBlock hCurrent.2 hNext.2 hClose
            rw [hCurrent.1] at hOpen
            cases hOpen
      · exact
          ih hChain.2
            (fun q hQ => hPassed q (List.mem_cons_of_mem _ hQ)) p hLater

end Tokens

namespace CommentSpan

open Tokens

/-
  The first token of a span has the tokens of the span between
  itself and the token that it was found from, and the walks from
  it come to the same two ends.
-/
theorem between_first
    {scope : Scope}
    {current : Placed}
    {before : List Placed}
    (after : List Placed)
    (hBlock : scope.isLineComment = false)
    (hCurrent : current.2.carries scope = true)
    (hChain : (current :: before).IsChain Parts) :
    ∃ passed rest,
      current :: before =
          passed ++ stroll scope Token.isOpenMark current before :: rest ∧
        (stroll scope Token.isOpenMark current before).2.carries scope =
            true ∧
          StaysAt scope Token.isOpenMark
              (stroll scope Token.isOpenMark current before) rest ∧
            between scope (stroll scope Token.isOpenMark current before)
                rest (passed.reverse ++ after) =
              between scope current before after := by
  rcases
      @exists_of_stroll scope Token.isOpenMark before current
        hCurrent with
    ⟨passed, rest, hRow, hPassed, hFirst, hStays⟩
  refine ⟨passed, rest, hRow, hFirst, hStays, ?_⟩
  unfold between
  rw [stroll_of_staysAt hStays]
  -- What is left to show is where the way down ends.
  suffices hDown :
      stroll scope Token.isCloseMark
          (stroll scope Token.isOpenMark current before)
          (passed.reverse ++ after) =
        stroll scope Token.isCloseMark current after by
    rw [hDown]
  cases passed with
  | nil =>
      rw [List.nil_append] at hRow
      rw [← (List.cons.inj hRow).1]
      rfl
  | cons p passed =>
      rw [List.cons_append] at hRow
      have hSame := (List.cons.inj hRow).1
      rw [hRow, ← hSame] at hChain
      rw [← hSame] at hPassed
      have hClose :=
        isCloseMark_eq_false_of_parts hBlock hFirst passed hChain hPassed
      rw [← hSame, List.reverse_cons, List.append_assoc,
        List.singleton_append]
      apply stroll_append after hCurrent
      · exact
          hClose _ (List.mem_append_right _ List.mem_cons_self)
      · intro q hMember
        have hIn := List.mem_reverse.mp hMember
        exact
          ⟨hClose q (List.mem_append_left _ hIn),
            (hPassed q (List.mem_cons_of_mem _ hIn)).2⟩

/-
  A block comment starts at a token with its scope, which is a
  begin mark unless no such token comes before it in its line,
  and has the same extent if it is found by that token.
-/
theorem exists_first_of_ofBlock
    {lines : Array Bytes}
    {tokens : Nat → List Token}
    {m : CommentMatch}
    {token : Token}
    (hTokens : Partitioned lines tokens)
    (hParted : Parted tokens lines.size)
    (hLine : m.line < lines.size)
    (hToken : (tokens m.line)[m.tokenIndex]? = some token)
    (hBlock : m.scope.isLineComment = false)
    (hCarries : token.carries m.scope = true) :
    ∃ span index first,
      (ofBlock lines.size m).eval tokens = span ∧
        (tokens span.startLine)[index]? = some first ∧
        first.start = span.startColumn ∧
        first.carries m.scope = true ∧
        (first.isOpenMark = true ∨
          ∀ {k : Nat} {t : Token},
            k + 1 = index →
              (tokens span.startLine)[k]? = some t →
                t.carries m.scope = false) ∧
        ∀ nearness,
          (ofBlock lines.size
              ⟨span.startLine, index, m.scope, nearness⟩).eval tokens =
            span := by
  have hRow := above_eq_append hLine hToken
  have hChain :
      ((m.line, token) ::
          Tokens.before tokens m.line m.tokenIndex).IsChain Parts := by
    unfold Parted at hParted
    rw [hRow] at hParted
    exact hParted.right_of_append
  rcases
      between_first
        (Tokens.after tokens lines.size m.line m.tokenIndex) hBlock
        hCarries hChain with
    ⟨passed, rest, hSplit, hFirst, hStays, hBetween⟩
  have hStart :
      (stroll m.scope Token.isOpenMark (m.line, token)
            (Tokens.before tokens m.line m.tokenIndex)).1 =
          (between m.scope (m.line, token)
            (Tokens.before tokens m.line m.tokenIndex)
            (Tokens.after tokens lines.size m.line
              m.tokenIndex)).startLine ∧
        (stroll m.scope Token.isOpenMark (m.line, token)
            (Tokens.before tokens m.line m.tokenIndex)).2.start =
          (between m.scope (m.line, token)
            (Tokens.before tokens m.line m.tokenIndex)
            (Tokens.after tokens lines.size m.line
              m.tokenIndex)).startColumn :=
    ⟨rfl, rfl⟩
  generalize
    stroll m.scope Token.isOpenMark (m.line, token)
      (Tokens.before tokens m.line m.tokenIndex) = first
        at hSplit hFirst hStays hBetween hStart
  have hSeen :
      above tokens lines.size =
        (passed.reverse ++
              Tokens.after tokens lines.size m.line
                m.tokenIndex).reverse ++
          first :: rest := by
    rw [hRow, hSplit, List.reverse_append, List.reverse_reverse,
      List.append_assoc]
  have hIn : first ∈ above tokens lines.size := by
    rw [hSeen]
    exact List.mem_append_right _ List.mem_cons_self
  rcases (mem_above_iff lines.size).mp hIn with ⟨hInside, hMember⟩
  rcases List.getElem?_of_mem hMember with ⟨index, hIndex⟩
  rcases sides_eq_of_above_eq hTokens hInside hIndex hSeen with
    ⟨hBefore, hAfter⟩
  have hSpan := @eval_ofBlock_eq tokens lines.size m token hToken
  refine
    ⟨_, index, first.2, hSpan, ?_, hStart.2, hFirst, ?_, ?_⟩
  · rw [← hStart.1]
    exact hIndex
  · rw [← hStart.1]
    cases hOpen : first.2.isOpenMark with
    | true => exact Or.inl rfl
    | false =>
        refine Or.inr ?_
        intro k t hNext hItem
        have hHead : rest.head? = some (first.1, t) := by
          rw [← hBefore, Tokens.before, ← hNext, List.take_add_one, hItem]
          simp [placed]
        rcases hStays _ hHead with hStops | hOther
        · rw [hOpen] at hStops
          cases hStops
        · exact hOther
  · intro nearness
    rw [← hStart.1]
    have hAgain :=
      @eval_ofBlock_eq tokens lines.size
        ⟨first.1, index, m.scope, nearness⟩ first.2 hIndex
    rw [hAgain]
    dsimp only
    rw [hBefore, hAfter]
    exact hBetween

end CommentSpan

end Marginalia

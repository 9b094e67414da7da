import Marginalia.Proofs.Token.Lazy
import Marginalia.Proofs.Token.Partition

/-
  This file proves that it does not matter in which order the lines
  of a document are asked for.

  However many lines of a fresh document are tokenized, they are
  the first ones of all lines, cut one after the other.  A request
  for a line tokenizes no more than the lines up to it, so after
  some requests the lines up to the furthest one are tokenized.

  Key definitions include:
    * `TokenizedDocument.after`
    * `TokenizedDocument.furthest`
  The main statements are:
    * `TokenizedDocument.tokenized_extend`
    * `TokenizedDocument.after_extend`
    * `TokenizedDocument.lineTokens_eq_eager`
-/

namespace Marginalia

namespace TokenizedDocument

------------------------------------------------------------
-- All Lines at Once
------------------------------------------------------------

/- The lines of a document that are not tokenized, with their limit. -/
def untokenized (d : TokenizedDocument) : List (Bytes × Nat) :=
  (d.lines.toList.drop d.tokenized.size).map
    (fun text => (text, d.maxLength))

/- The first of these lines, and those after it. -/
theorem untokenized_of_line
    {d : TokenizedDocument}
    {text : Bytes}
    (hLine : d.lines[d.tokenized.size]? = some text) :
    d.untokenized =
      (text, d.maxLength) :: (d.advance text).untokenized := by
  rcases Array.getElem?_eq_some_iff.mp hLine with ⟨hLt, hText⟩
  have hDrop :
      d.lines.toList.drop d.tokenized.size =
        text :: d.lines.toList.drop (d.tokenized.size + 1) := by
    rw [← hText]
    exact List.drop_eq_getElem_cons hLt
  simp [untokenized, advance, hDrop]

/-
  If all lines that are not tokenized were cut one after the other,
  the next ones that are tokenized are the first of these.  The
  induction is on their number.
-/
theorem tokenized_extend
    (n : Nat) :
    ∀ {d : TokenizedDocument} {results : List LineTokens},
      tokenizeLines? d.grammar.engine.toEngine d.grammar d.nextStack
            d.untokenized =
          some results →
        (d.extend n).tokenized.toList =
          d.tokenized.toList ++ results.take n := by
  induction n with
  | zero =>
      intro d results _
      rw [List.take_zero, List.append_nil]
      rfl
  | succ n ih =>
      intro d results hResults
      cases hLine : d.lines[d.tokenized.size]? with
      | none =>
          have hDone := Array.getElem?_eq_none_iff.mp hLine
          have hNothing : d.untokenized = [] := by
            simpa [untokenized] using hDone
          rw [hNothing] at hResults
          cases hResults
          rw [extend_of_done hDone, List.take_nil, List.append_nil]
      | some text =>
          rw [untokenized_of_line hLine, tokenizeLines?] at hResults
          split at hResults
          · cases hResults
          · next made hMade =>
              rcases Option.map_eq_some_iff.mp hResults with
                ⟨later, hLater, rfl⟩
              rcases tokenized_advance hMade with ⟨hTokenized, hNext⟩
              rw [← hNext] at hLater
              rw [extend_of_line hLine, ih hLater, hTokenized]
              simp

/- All lines of a fresh document are cut one after the other. -/
theorem exists_eager
    {d : TokenizedDocument}
    (hFresh : Fresh d) :
    ∃ eager,
      tokenizeLines? d.grammar.engine.toEngine d.grammar RuleStack.empty
            (d.lines.toList.map (fun text => (text, d.maxLength))) =
          some eager ∧
        eager.length = d.lines.size ∧
          ∀ n, (d.extend n).tokenized.toList = eager.take n := by
  rcases
      tokenizeLines?_partition d.grammar.engine.staysInside d.grammar
        (d.lines.toList.map (fun text => (text, d.maxLength))) with
    ⟨eager, hEager, hPartition⟩
  refine ⟨eager, hEager, ?_, ?_⟩
  · simpa using hPartition.length_eq.symm
  · intro n
    have hStack : d.nextStack = RuleStack.empty := by
      rw [nextStack, hFresh]
      rfl
    have hLines :
        d.untokenized =
          d.lines.toList.map (fun text => (text, d.maxLength)) := by
      rw [untokenized, hFresh]
      rfl
    rw [← hStack, ← hLines] at hEager
    rw [tokenized_extend n hEager, hFresh]
    rfl

------------------------------------------------------------
-- Requests
------------------------------------------------------------

/- The document after lines of it were asked for, in this order. -/
def after
    (d : TokenizedDocument)
    (requests : List Nat) : TokenizedDocument :=
  requests.foldl (fun d line => (d.lineTokens line).2) d

/-
  One more than the largest of some requests for one of `count`
  lines; zero if none of them is for such a line.
-/
def furthest (count : Nat) (requests : List Nat) : Nat :=
  match (requests.filter (fun line => line < count)).max? with
  | none => 0
  | some line => line + 1

/- A request for a line that does not exist does not count. -/
theorem furthest_cons_of_le
    {count line : Nat}
    (hLine : count ≤ line)
    (requests : List Nat) :
    furthest count (line :: requests) = furthest count requests := by
  rw [furthest, List.filter_cons_of_neg (by simpa using hLine),
    furthest]

/- The larger of the first request and the others counts. -/
theorem furthest_cons_of_lt
    {count line : Nat}
    (hLine : line < count)
    (requests : List Nat) :
    furthest count (line :: requests) =
      max (line + 1) (furthest count requests) := by
  rw [furthest, List.filter_cons_of_pos (by simpa using hLine),
    furthest, List.max?_cons]
  cases (requests.filter (fun line => line < count)).max? with
  | none => simp
  | some other => simp [Nat.succ_max_succ]

variable {d : TokenizedDocument}

/-
  After some requests, the lines up to the furthest one are
  tokenized.  The induction is on the requests.
-/
theorem after_extend
    (hFresh : Fresh d)
    (requests : List Nat) :
    ∀ n,
      (d.extend n).after requests =
        d.extend (max n (furthest d.lines.size requests)) := by
  induction requests with
  | nil =>
      intro n
      rw [furthest]
      simp [after]
  | cons line requests ih =>
      intro n
      have hFirst :
          (d.extend n).after (line :: requests) =
            ((d.extend n).lineTokens line).2.after requests :=
        rfl
      rw [hFirst]
      by_cases hLine : line < d.lines.size
      · have hLater :
            ((d.extend n).lineTokens line).2 =
              d.extend (max n (line + 1)) := by
          rw [lineTokens_extend_eq hFresh hLine]
          split <;> rfl
        rw [hLater, ih, furthest_cons_of_lt hLine, max_assoc]
      · have hPast := Nat.le_of_not_lt hLine
        rw [lineTokens_extend_of_le hPast, ih,
          furthest_cons_of_le hPast]

/- No more lines are asked for than there are. -/
theorem furthest_le
    (count : Nat)
    (requests : List Nat) :
    furthest count requests ≤ count := by
  induction requests with
  | nil => exact Nat.zero_le _
  | cons line requests ih =>
      by_cases hLine : line < count
      · rw [furthest_cons_of_lt hLine]
        omega
      · rw [furthest_cons_of_le (Nat.le_of_not_lt hLine)]
        exact ih

/-
  Whatever lines of a document were asked for before, in whatever
  order: a line that exists has the tokens and the stack that it
  has if all lines are cut one after the other, a line that does
  not exist is refused and leaves the document as it is, and the
  lines up to the furthest one are tokenized, and no others.
-/
theorem lineTokens_eq_eager
    (grammar : Grammar)
    (document : Document)
    (maxLength : Nat) :
    ∃ eager,
      tokenizeLines? grammar.engine.toEngine grammar RuleStack.empty
            (document.lines.map (fun text => (text, maxLength))) =
          some eager ∧
        eager.length = document.lines.length ∧
          ∀ requests : List Nat,
            let d := (create grammar document maxLength).after requests
            (∀ line result,
                eager[line]? = some result →
                  (d.lineTokens line).1 = .ok result) ∧
              (∀ line,
                document.lines.length ≤ line →
                  d.lineTokens line = (.error .noSuchLine, d)) ∧
                d.tokenizedCount =
                  furthest document.lines.length requests := by
  have hFresh := fresh_create grammar document maxLength
  have hSize :
      (create grammar document maxLength).lines.size =
        document.lines.length :=
    List.size_toArray
  rcases exists_eager hFresh with ⟨eager, hEager, hLength, hTaken⟩
  rw [hSize] at hLength
  refine ⟨eager, hEager, hLength, ?_⟩
  intro requests d
  have hAfter :
      d =
        (create grammar document maxLength).extend
          (furthest document.lines.length requests) := by
    have hAll := after_extend hFresh requests 0
    rwa [Nat.zero_max, hSize] at hAll
  rw [hAfter]
  refine ⟨?_, ?_, ?_⟩
  · intro line result hResult
    have hLine : line < eager.length :=
      (List.getElem?_eq_some_iff.mp hResult).1
    have hTokens :
        ((create grammar document maxLength).extend
            (max (furthest document.lines.length requests)
              (line + 1))).tokenized[line]? =
          some result := by
      rw [← Array.getElem?_toList, hTaken, List.getElem?_take,
        if_pos (by omega)]
      exact hResult
    rw [lineTokens_extend_eq hFresh (by omega), hTokens]
  · intro line hLine
    exact lineTokens_extend_of_le (by omega) _
  · have hLe := furthest_le document.lines.length requests
    rw [tokenizedCount, size_extend_of_fresh hFresh, hSize]
    omega

end TokenizedDocument

end Marginalia

import Marginalia.Token.Document

/-
  This file proves that it does not matter how much of a
  document was tokenized before it is asked about.

  Whatever was asked before, a document is a fresh one of which
  some lines were tokenized.  Tokenizing more lines changes no
  line that was tokenized, so every line has the same tokens at
  all times.

  Key definitions include:
    * `TokenizedDocument.Fresh`
    * `TokenizedDocument.tokensAt`
  The main statements are:
    * `TokenizedDocument.extend_extend`
    * `TokenizedDocument.lineTokens_extend`
    * `TokenizedDocument.answer_extend`
-/

namespace Marginalia

namespace TokenizedDocument

------------------------------------------------------------
-- Tokenizing More Lines
------------------------------------------------------------

/- A document whose lines are all tokenized stays as it is. -/
theorem extend_of_done
    {d : TokenizedDocument}
    (hDone : d.lines.size ≤ d.tokenized.size)
    (n : Nat) :
    d.extend n = d := by
  cases n with
  | zero => rfl
  | succ n =>
      have hNone : d.lines[d.tokenized.size]? = none :=
        Array.getElem?_eq_none hDone
      rw [extend, hNone]

/- The document with one more line tokenized. -/
def advance (d : TokenizedDocument) (text : Bytes) : TokenizedDocument :=
  { d with
    tokenized :=
      d.tokenized.push
        (tokenizeLine d.grammar text d.nextStack d.maxLength) }

/- A line that comes to an end is added with its tokens. -/
theorem tokenized_advance
    {d : TokenizedDocument}
    {text : Bytes}
    {made : LineTokens}
    (hLine :
      tokenizeLine? d.grammar.engine.toEngine d.grammar text
          d.nextStack d.maxLength =
        some made) :
    (d.advance text).tokenized = d.tokenized.push made ∧
      (d.advance text).nextStack = made.stack := by
  have hMade :
      tokenizeLine d.grammar text d.nextStack d.maxLength = made := by
    rw [tokenizeLine, hLine]
    rfl
  constructor
  · rw [advance, hMade]
  · rw [nextStack, advance, hMade, Array.back?_push]

/- One line is tokenized, and then the others. -/
theorem extend_of_line
    {d : TokenizedDocument}
    {text : Bytes}
    (hLine : d.lines[d.tokenized.size]? = some text)
    (n : Nat) :
    d.extend (n + 1) = (d.advance text).extend n := by
  rw [extend, hLine]
  rfl

/-
  Tokenizing some lines and then more is tokenizing all of them.
  The induction is on the number of the first ones.
-/
theorem extend_extend
    (m n : Nat) :
    ∀ d : TokenizedDocument,
      (d.extend m).extend n = d.extend (m + n) := by
  induction m with
  | zero =>
      intro d
      rw [Nat.zero_add]
      rfl
  | succ m ih =>
      intro d
      cases hLine : d.lines[d.tokenized.size]? with
      | none =>
          have hDone := Array.getElem?_eq_none_iff.mp hLine
          rw [extend_of_done hDone, extend_of_done hDone,
            extend_of_done hDone]
      | some text =>
          rw [extend_of_line hLine, ih, Nat.succ_add_eq_add_succ,
            Nat.add_succ, extend_of_line hLine]

/- Tokenizing changes nothing but the tokens. -/
theorem exists_tokenized_extend
    (n : Nat) :
    ∀ d : TokenizedDocument,
      ∃ tokenized, d.extend n = { d with tokenized := tokenized } := by
  induction n with
  | zero =>
      intro d
      exact ⟨d.tokenized, rfl⟩
  | succ n ih =>
      intro d
      cases hLine : d.lines[d.tokenized.size]? with
      | none =>
          rw [extend_of_done (Array.getElem?_eq_none_iff.mp hLine)]
          exact ⟨d.tokenized, rfl⟩
      | some text =>
          rw [extend_of_line hLine]
          rcases ih (d.advance text) with ⟨tokenized, hSame⟩
          exact ⟨tokenized, hSame⟩

/- The lines stay as they are. -/
theorem lines_extend
    (n : Nat)
    (d : TokenizedDocument) :
    (d.extend n).lines = d.lines := by
  rcases exists_tokenized_extend n d with ⟨tokenized, hSame⟩
  rw [hSame]

/- Tokenizing leaves the grammar and the limit as they are. -/
theorem setup_extend
    (n : Nat)
    (d : TokenizedDocument) :
    (d.extend n).grammar = d.grammar ∧
      (d.extend n).maxLength = d.maxLength := by
  rcases exists_tokenized_extend n d with ⟨tokenized, hSame⟩
  rw [hSame]
  exact ⟨rfl, rfl⟩

/- The number of lines tokenized grows up to the number of lines. -/
theorem size_extend
    (n : Nat) :
    ∀ d : TokenizedDocument,
      d.tokenized.size ≤ d.lines.size →
        (d.extend n).tokenized.size =
          min (d.tokenized.size + n) d.lines.size := by
  induction n with
  | zero =>
      intro d hSize
      change d.tokenized.size = _
      omega
  | succ n ih =>
      intro d hSize
      cases hLine : d.lines[d.tokenized.size]? with
      | none =>
          have hDone := Array.getElem?_eq_none_iff.mp hLine
          rw [extend_of_done hDone]
          omega
      | some text =>
          have hLt : d.tokenized.size < d.lines.size :=
            (Array.getElem?_eq_some_iff.mp hLine).1
          have hPush :
              (d.advance text).tokenized.size =
                d.tokenized.size + 1 := by
            simp [advance]
          have hLines : (d.advance text).lines = d.lines := rfl
          rw [extend_of_line hLine, ih, hPush, hLines]
          · omega
          · rw [hPush, hLines]
            omega

/- A line that is tokenized keeps its tokens. -/
theorem getElem?_extend
    {line : Nat}
    (n : Nat) :
    ∀ d : TokenizedDocument,
      line < d.tokenized.size →
        (d.extend n).tokenized[line]? = d.tokenized[line]? := by
  induction n with
  | zero =>
      intro d _
      rfl
  | succ n ih =>
      intro d hTokenized
      cases hLine : d.lines[d.tokenized.size]? with
      | none =>
          rw [extend_of_done (Array.getElem?_eq_none_iff.mp hLine)]
      | some text =>
          rw [extend_of_line hLine, ih]
          · rw [Array.getElem?_eq_getElem hTokenized]
            exact Array.getElem?_push_lt hTokenized
          · simp only [advance, Array.size_push]
            omega

------------------------------------------------------------
-- Fresh Documents
------------------------------------------------------------

/- No line of the document is tokenized yet. -/
def Fresh (d : TokenizedDocument) : Prop :=
  d.tokenized = #[]

/- A document that was just made. -/
theorem fresh_create
    (grammar : Grammar)
    (document : Document)
    (maxLength : Nat) :
    Fresh (create grammar document maxLength) :=
  rfl

/- The number of lines tokenized of a fresh document. -/
theorem size_extend_of_fresh
    {d : TokenizedDocument}
    (hFresh : Fresh d)
    (n : Nat) :
    (d.extend n).tokenized.size = min n d.lines.size := by
  have hNothing : d.tokenized.size = 0 := by
    rw [hFresh]
    rfl
  rw [size_extend n d (by omega), hNothing, Nat.zero_add]

/-
  The tokens of a line of a fresh document, once it is
  tokenized.
-/
def tokensAt (d : TokenizedDocument) (line : Nat) : List Token :=
  match (d.extend (line + 1)).tokenized[line]? with
  | none => []
  | some result => result.tokens

/- Up to a line, tokenizing stops behind it or where it was. -/
theorem reach_extend
    {d : TokenizedDocument}
    {line : Nat}
    (hFresh : Fresh d)
    (hLine : line < d.lines.size)
    (n : Nat) :
    (d.extend n).reach line = d.extend (max n (line + 1)) := by
  rw [reach, extend_extend, size_extend_of_fresh hFresh]
  by_cases hPast : line < n
  · have hNothing : line + 1 - min n d.lines.size = 0 := by
      omega
    rw [hNothing, Nat.add_zero, Nat.max_eq_left hPast]
  · have hMore : n + (line + 1 - min n d.lines.size) = line + 1 := by
      omega
    rw [hMore, Nat.max_eq_right (by omega)]

/- A request for a line tokenizes the lines up to it, if it exists. -/
theorem lineTokens_extend_eq
    {d : TokenizedDocument}
    {line : Nat}
    (hFresh : Fresh d)
    (hLine : line < d.lines.size)
    (n : Nat) :
    (d.extend n).lineTokens line =
      match (d.extend (max n (line + 1))).tokenized[line]? with
      | some tokens => (.ok tokens, d.extend (max n (line + 1)))
      | none =>
          (.error .noSuchLine, d.extend (max n (line + 1))) := by
  have hCount : line < (d.extend n).lineCount := by
    rw [lineCount, lines_extend]
    exact hLine
  calc
    (d.extend n).lineTokens line =
        match ((d.extend n).reach line).tokenized[line]? with
        | some tokens => (.ok tokens, (d.extend n).reach line)
        | none => (.error .noSuchLine, (d.extend n).reach line) :=
      if_pos hCount
    _ = _ := by rw [reach_extend hFresh hLine]

/-
  However many lines were tokenized, a line has the same tokens,
  and afterwards some lines are tokenized.
-/
theorem lineTokens_extend
    {d : TokenizedDocument}
    {line : Nat}
    (hFresh : Fresh d)
    (hLine : line < d.lines.size)
    (n : Nat) :
    ∃ result m,
      result.tokens = d.tokensAt line ∧
        (d.extend n).lineTokens line = (.ok result, d.extend m) := by
  have hReached : line < (d.extend (line + 1)).tokenized.size := by
    rw [size_extend_of_fresh hFresh]
    omega
  cases hResult : (d.extend (line + 1)).tokenized[line]? with
  | none =>
      have hNone := Array.getElem?_eq_none_iff.mp hResult
      omega
  | some result =>
      have hLater :
          (d.extend (max n (line + 1))).tokenized[line]? =
            some result := by
        have hSum :
            max n (line + 1) = line + 1 + (n - (line + 1)) := by
          omega
        rw [hSum, ← extend_extend, getElem?_extend _ _ hReached]
        exact hResult
      refine ⟨result, max n (line + 1), ?_, ?_⟩
      · rw [tokensAt, hResult]
      · rw [lineTokens_extend_eq hFresh hLine, hLater]

/- A line that does not exist has no tokens. -/
theorem lineTokens_extend_of_le
    {d : TokenizedDocument}
    {line : Nat}
    (hLine : d.lines.size ≤ line)
    (n : Nat) :
    (d.extend n).lineTokens line =
      (.error .noSuchLine, d.extend n) := by
  have hCount : ¬line < (d.extend n).lineCount := by
    rw [lineCount, lines_extend]
    omega
  rw [lineTokens, if_neg hCount]

------------------------------------------------------------
-- Questions
------------------------------------------------------------

/- A line that does not exist has no tokens. -/
theorem tokensAt_eq_nil
    {d : TokenizedDocument}
    {line : Nat}
    (hFresh : Fresh d)
    (hLine : d.lines.size ≤ line) :
    d.tokensAt line = [] := by
  have hSize : (d.extend (line + 1)).tokenized.size ≤ line := by
    rw [size_extend_of_fresh hFresh]
    omega
  rw [tokensAt, Array.getElem?_eq_none hSize]

/-
  However many lines were tokenized, a question has the same
  answer, and afterwards some lines are tokenized.  The
  induction is on the question.
-/
theorem answer_extend
    {α : Type}
    {d : TokenizedDocument}
    (hFresh : Fresh d)
    (q : TokenQuery α) :
    ∀ n, ∃ m,
      answer q (d.extend n) = (q.eval d.tokensAt, d.extend m) := by
  induction q with
  | answer value =>
      intro n
      exact ⟨n, rfl⟩
  | ask line next ih =>
      intro n
      by_cases hLine : line < d.lines.size
      · rcases lineTokens_extend hFresh hLine n with
          ⟨result, m, hTokens, hOut⟩
        rcases ih (d.tokensAt line) m with ⟨k, hAnswer⟩
        refine ⟨k, ?_⟩
        rw [answer, hOut]
        dsimp only
        rw [hTokens]
        exact hAnswer
      · have hPast := Nat.le_of_not_lt hLine
        rcases ih [] n with ⟨k, hAnswer⟩
        refine ⟨k, ?_⟩
        rw [answer, lineTokens_extend_of_le hPast, TokenQuery.eval,
          tokensAt_eq_nil hFresh hPast]
        exact hAnswer

/- A question about a line tokenizes some more lines. -/
theorem exists_extend_lineTokens
    (d : TokenizedDocument)
    (line : Nat) :
    ∃ n, (d.lineTokens line).2 = d.extend n := by
  unfold lineTokens
  split
  · refine ⟨line + 1 - d.tokenized.size, ?_⟩
    dsimp only
    split <;> rfl
  · exact ⟨0, rfl⟩

/- So does any question.  The induction is on the question. -/
theorem exists_extend_answer
    {α : Type}
    (q : TokenQuery α) :
    ∀ d : TokenizedDocument, ∃ n, (answer q d).2 = d.extend n := by
  induction q with
  | answer value =>
      intro d
      exact ⟨0, rfl⟩
  | ask line next ih =>
      intro d
      rcases exists_extend_lineTokens d line with ⟨m, hLine⟩
      have hNext :
          ∃ tokens, (answer (.ask line next) d).2 =
            (answer (next tokens) (d.lineTokens line).2).2 := by
        rw [answer]
        cases hTokens : d.lineTokens line with
        | mk result later =>
            cases result with
            | ok result => exact ⟨result.tokens, rfl⟩
            | error e => exact ⟨[], rfl⟩
      rcases hNext with ⟨tokens, hNext⟩
      rcases ih tokens (d.lineTokens line).2 with ⟨n, hRest⟩
      refine ⟨m + n, ?_⟩
      rw [hNext, hRest, hLine, extend_extend]

/- The answer alone. -/
theorem fst_answer_extend
    {α : Type}
    {d : TokenizedDocument}
    (hFresh : Fresh d)
    (q : TokenQuery α)
    (n : Nat) :
    (answer q (d.extend n)).1 = q.eval d.tokensAt := by
  rcases answer_extend hFresh q n with ⟨_, hAnswer⟩
  exact congrArg Prod.fst hAnswer

/- A question has the same answer as for a fresh document. -/
theorem answer_extend_eq_answer
    {α : Type}
    {d : TokenizedDocument}
    (hFresh : Fresh d)
    (q : TokenQuery α)
    (n : Nat) :
    ∃ m,
      answer q (d.extend n) = ((answer q d).1, d.extend m) := by
  rcases answer_extend hFresh q n with ⟨m, hLater⟩
  have hValue : (answer q d).1 = q.eval d.tokensAt :=
    fst_answer_extend hFresh q 0
  refine ⟨m, ?_⟩
  rw [hValue]
  exact hLater

end TokenizedDocument

end Marginalia

import Marginalia.Proofs.Comment.Columns
import Marginalia.Proofs.Token.Partition

/-
  This file proves where a comment is found and how far it
  reaches, given tokens that partition the lines of a document:
  the token that is found is one of its line, and the span goes
  from the start of a token to the stop of one, around the token
  that was found and inside the document.

  Each way to widen a span is described by what it returns: the
  end reached so far, or an end of some token in a line further
  on.

  Key definitions include:
    * `Tokens.Partitioned`
    * `CommentMatch.Located`
    * `LineRun.Within`
    * `CommentSpan.ReachesUp`, `CommentSpan.ReachesDown`
    * `CommentSpan.Around`
  The main statements are:
    * `CommentMatch.located_of_locate`
    * `CommentSpan.around_ofMatch`
-/

namespace Marginalia

------------------------------------------------------------
-- Tokens in Order
------------------------------------------------------------

namespace Tokens

/- The tokens partition each line of a document. -/
def Partitioned
    (lines : Array Bytes)
    (tokens : Nat → List Token) : Prop :=
  ∀ line < lines.size,
    Partition (lines.getD line []).length (tokens line)

/- No token starts before the stop of one that comes before it. -/
theorem stop_le_start_of_chain
    (rest : List Token) :
    ∀ {first : Token},
      (first :: rest).IsChain (fun t next => next.start = t.stop) →
        (∀ t ∈ rest, t.start < t.stop) →
          ∀ t ∈ rest, first.stop ≤ t.start := by
  induction rest with
  | nil =>
      intro first _ _ t hMember
      cases hMember
  | cons next rest ih =>
      intro first hChain hWide t hMember
      rw [List.isChain_cons_cons] at hChain
      rcases List.mem_cons.mp hMember with rfl | hLater
      · exact Nat.le_of_eq hChain.1.symm
      · have hNext := hWide next List.mem_cons_self
        have hRest :=
          ih hChain.2
            (fun other hOther =>
              hWide other (List.mem_cons_of_mem _ hOther))
            t hLater
        omega

/- The tokens of a line are in order. -/
theorem pairwise_of_partition
    {length : Nat}
    {tokens : List Token}
    (hPartition : Partition length tokens) :
    tokens.Pairwise (fun a b => a.stop ≤ b.start) := by
  have hChain := hPartition.start_of_next
  have hWide := hPartition.start_lt_stop
  clear hPartition
  induction tokens with
  | nil => exact List.Pairwise.nil
  | cons first rest ih =>
      have hRestWide : ∀ t ∈ rest, t.start < t.stop :=
        fun t hMember => hWide t (List.mem_cons_of_mem _ hMember)
      refine
        List.pairwise_cons.mpr
          ⟨stop_le_start_of_chain rest hChain hRestWide, ?_⟩
      exact ih hChain.tail hRestWide

/- A token that comes no later starts no later and stops no later. -/
theorem le_of_index_le
    {length i j : Nat}
    {tokens : List Token}
    {a b : Token}
    (hPartition : Partition length tokens)
    (hFirst : tokens[i]? = some a)
    (hSecond : tokens[j]? = some b)
    (hLe : i ≤ j) :
    a.start ≤ b.start ∧ a.stop ≤ b.stop := by
  rcases Nat.lt_or_eq_of_le hLe with hLt | rfl
  · rcases List.getElem?_eq_some_iff.mp hFirst with ⟨hI, rfl⟩
    rcases List.getElem?_eq_some_iff.mp hSecond with ⟨hJ, rfl⟩
    have hOrder :=
      List.pairwise_iff_getElem.mp (pairwise_of_partition hPartition) i j
        hI hJ hLt
    have hFirstWide :=
      hPartition.start_lt_stop _ (List.getElem_mem hI)
    have hSecondWide :=
      hPartition.start_lt_stop _ (List.getElem_mem hJ)
    omega
  · cases hFirst.symm.trans hSecond
    exact ⟨Nat.le_refl _, Nat.le_refl _⟩

/- No token stops behind the end of its line. -/
theorem stop_le_of_mem
    {length : Nat}
    {tokens : List Token}
    {token : Token}
    (hPartition : Partition length tokens)
    (hMember : token ∈ tokens) :
    token.stop ≤ length := by
  rcases List.mem_iff_getElem?.mp hMember with ⟨index, hToken⟩
  have hIndex := (List.getElem?_eq_some_iff.mp hToken).1
  have hLast :=
    List.getLast?_eq_some_getLast (List.ne_nil_of_mem hMember)
  have hStop := hPartition.stop_of_last _ hLast
  rw [List.getLast?_eq_getElem?] at hLast
  rw [← hStop]
  exact (le_of_index_le hPartition hToken hLast (by omega)).2

/- A token before another one starts no later. -/
theorem start_le_of_mem_take
    {length index : Nat}
    {tokens : List Token}
    {t token : Token}
    (hPartition : Partition length tokens)
    (hToken : tokens[index]? = some token)
    (hMember : t ∈ tokens.take index) :
    t.start ≤ token.start := by
  rcases List.mem_take_iff_getElem.mp hMember with ⟨i, hI, hItem⟩
  have hFirst : tokens[i]? = some t := by
    rw [List.getElem?_eq_getElem (by omega), hItem]
  exact (le_of_index_le hPartition hFirst hToken (by omega)).1

/- A token after another one stops no earlier. -/
theorem stop_le_of_mem_drop
    {length index : Nat}
    {tokens : List Token}
    {t token : Token}
    (hPartition : Partition length tokens)
    (hToken : tokens[index]? = some token)
    (hMember : t ∈ tokens.drop (index + 1)) :
    token.stop ≤ t.stop := by
  rcases List.mem_drop_iff_getElem.mp hMember with ⟨i, hI, hItem⟩
  have hSecond : tokens[index + 1 + i]? = some t := by
    rw [List.getElem?_eq_getElem (by omega), hItem]
  exact (le_of_index_le hPartition hToken hSecond (by omega)).2

end Tokens

------------------------------------------------------------
-- Finding a Comment
------------------------------------------------------------

/- The innermost comment scope of a token is one of its scopes. -/
theorem Token.properties_of_commentScope?
    {token : Token}
    {scope : Scope}
    (hScope : token.commentScope? = some scope) :
    scope ∈ token.scopes ∧ scope.isUnder Scope.comment = true := by
  refine ⟨?_, by simpa using List.find?_some hScope⟩
  exact List.mem_reverse.mp (List.mem_of_find?_eq_some hScope)

namespace CommentMatch

variable {lines : Array Bytes}
variable {tokens : Nat → List Token}
variable {position : Position}
variable {m : CommentMatch}

/-
  A comment was found at a token of a line.  If it was found at
  the position, the token touches the column of the position.
-/
structure Located
    (lines : Array Bytes)
    (tokens : Nat → List Token)
    (position : Position)
    (m : CommentMatch)
    (token : Token) : Prop where
  line_lt : m.line < lines.size
  getElem_eq : (tokens m.line)[m.tokenIndex]? = some token
  scope_eq : token.commentScope? = some m.scope
  line_eq : m.nearness = .exact → (m.line : Int) = position.line
  start_le :
    m.nearness = .exact →
      token.start ≤
        Utf16.toByteColumn (lines.getD m.line []) position.character
  le_stop :
    m.nearness = .exact →
      Utf16.toByteColumn (lines.getD m.line []) position.character ≤
        token.stop

/- A match of a token is where the token is. -/
theorem properties_of_ofToken?
    {line index : Nat}
    {ts : List Token}
    {nearness : Nearness}
    (hMatch : ofToken? line ts index nearness = some m) :
    ∃ token,
      ts[index]? = some token ∧ token.commentScope? = some m.scope ∧
        m.line = line ∧ m.tokenIndex = index ∧
          m.nearness = nearness := by
  unfold ofToken? at hMatch
  split at hMatch
  · cases hMatch
  · next token hToken =>
      rcases Option.map_eq_some_iff.mp hMatch with ⟨scope, hScope, rfl⟩
      exact ⟨token, hToken, hScope, rfl, rfl, rfl⟩

/- The token at a column touches it. -/
theorem touches_of_indexAt?
    {text : Bytes}
    {ts : List Token}
    {column index : Nat}
    {token : Token}
    (hPartition : Tokens.Partition text.length ts)
    (hIndex : indexAt? text ts column = some index)
    (hToken : ts[index]? = some token) :
    token.start ≤ column ∧ column ≤ token.stop := by
  unfold indexAt? at hIndex
  split at hIndex
  · next found hFound =>
      cases hIndex
      rcases List.findIdx?_eq_some_iff_getElem.mp hFound with
        ⟨hLt, hHolds, _⟩
      rw [List.getElem?_eq_getElem hLt] at hToken
      cases hToken
      simp only [Bool.and_eq_true, decide_eq_true_eq] at hHolds
      omega
  · split at hIndex
    · cases hIndex
    · next hEnd =>
        cases hIndex
        simp only [Bool.or_eq_true, bne_iff_ne, not_or, not_not] at hEnd
        have hLast : token ∈ ts.getLast? := by
          rw [List.getLast?_eq_getElem?]
          exact hToken
        have hStop := hPartition.stop_of_last token hLast
        have hWide :=
          hPartition.start_lt_stop token (List.mem_of_getElem? hToken)
        omega

/- A comment that is found below is one of the lines below. -/
theorem located_of_below
    (remaining : Nat) :
    ∀ {line : Nat},
      line + remaining ≤ lines.size →
        (below lines remaining line).eval tokens = some m →
          ∃ token, Located lines tokens position m token := by
  induction remaining with
  | zero =>
      intro line _ hFound
      cases hFound
  | succ remaining ih =>
      intro line hLines hFound
      unfold below at hFound
      dsimp only at hFound
      split at hFound
      · exact ih (by omega) hFound
      · rw [TokenQuery.eval_bind, TokenQuery.eval_tokensOf] at hFound
        split at hFound
        · exact ih (by omega) hFound
        · rcases properties_of_ofToken? hFound with
            ⟨token, hToken, hScope, rfl, hIndex, hBelow⟩
          rw [← hIndex] at hToken
          refine ⟨token, by omega, hToken, hScope, ?_, ?_, ?_⟩
          all_goals
            intro hExact
            rw [hBelow] at hExact
            cases hExact

/- A comment that is found at a position is located there or below. -/
theorem located_of_locate
    (hTokens : Tokens.Partitioned lines tokens)
    (hFound : (locate lines position).eval tokens = some m) :
    ∃ token, Located lines tokens position m token := by
  unfold locate at hFound
  split at hFound
  · cases hFound
  · next hInside =>
      simp only [TokenQuery.eval_bind, TokenQuery.eval_tokensOf] at hFound
      split at hFound
      · next found hAt =>
          cases hFound
          unfold at? at hAt
          split at hAt
          · cases hAt
          · next index hIndex =>
              rcases properties_of_ofToken? hAt with
                ⟨token, hToken, hScope, hLine, rfl, _⟩
              have hLt : position.line.toNat < lines.size := by omega
              have hTouches :=
                touches_of_indexAt? (hTokens _ hLt) hIndex hToken
              rw [← hLine] at hToken hTouches hLt
              refine
                ⟨token, hLt, hToken, hScope, ?_, fun _ => hTouches.1,
                  fun _ => hTouches.2⟩
              intro _
              omega
      · exact located_of_below _ (by omega) hFound

end CommentMatch

------------------------------------------------------------
-- Runs of Tokens in a Line
------------------------------------------------------------

namespace LineRun

/- The run holds an index, and lies inside the tokens of the line. -/
structure Within
    (tokens : List Token)
    (index : Nat)
    (run : LineRun) : Prop where
  first_le : run.first ≤ index
  le_last : index ≤ run.last
  last_lt : run.last < tokens.length

/- The run around a token lies inside the line. -/
theorem within_around
    {tokens : List Token}
    {index : Nat}
    (hIndex : index < tokens.length)
    (scope : Scope) :
    Within tokens index (around tokens index scope) where
  first_le := Nat.sub_le _ _
  le_last := Nat.le_add_right _ _
  last_lt := by
    have hLength :=
      (List.takeWhile_sublist (fun t : Token => t.carries scope)
        (l := tokens.drop (index + 1))).length_le
    rw [List.length_drop] at hLength
    change index + _ < _
    omega

/- The run of a line that holds nothing else lies inside the line. -/
theorem within_of_only?
    {text : Bytes}
    {tokens : List Token}
    {scope : Scope}
    {run : LineRun}
    (hOnly : only? text tokens scope = some run) :
    ∃ index, Within tokens index run := by
  unfold only? at hOnly
  dsimp only at hOnly
  split at hOnly
  · cases hOnly
  · next token hToken =>
      split at hOnly
      · split at hOnly
        · cases hOnly
          exact
            ⟨_,
              within_around (List.getElem?_eq_some_iff.mp hToken).1 scope⟩
        · cases hOnly
      · cases hOnly

/- The comment of a line that holds nothing else, with its tokens. -/
theorem within_of_onlyIn
    {lines : Array Bytes}
    {tokens : Nat → List Token}
    {scope : Scope}
    {line : Nat}
    {run : LineRun}
    {ts : List Token}
    (hOnly : (onlyIn lines scope line).eval tokens = some (run, ts)) :
    ts = tokens line ∧ ∃ index, Within ts index run := by
  unfold onlyIn at hOnly
  dsimp only at hOnly
  split at hOnly
  · cases hOnly
  · simp only [TokenQuery.eval_bind, TokenQuery.eval_tokensOf,
      TokenQuery.eval_pure] at hOnly
    rcases Option.map_eq_some_iff.mp hOnly with ⟨other, hRun, hPair⟩
    cases hPair
    exact ⟨rfl, within_of_only? hRun⟩

variable {tokens : List Token}
variable {index : Nat}
variable {run : LineRun}

/- A run starts at a token of the line. -/
theorem exists_startColumn
    (hWithin : Within tokens index run) :
    ∃ t, tokens[run.first]? = some t ∧ run.startColumn tokens = t.start := by
  have hLt : run.first < tokens.length := by
    have hFirst := hWithin.first_le
    have hIndex := hWithin.le_last
    have hLast := hWithin.last_lt
    omega
  refine ⟨tokens[run.first], List.getElem?_eq_getElem hLt, ?_⟩
  simp [startColumn, List.getD_eq_getElem?_getD, hLt]

/- A run stops at a token of the line. -/
theorem exists_stopColumn
    (hWithin : Within tokens index run) :
    ∃ t, tokens[run.last]? = some t ∧ run.stopColumn tokens = t.stop := by
  have hLt := hWithin.last_lt
  refine ⟨tokens[run.last], List.getElem?_eq_getElem hLt, ?_⟩
  simp [stopColumn, List.getD_eq_getElem?_getD, hLt]

end LineRun

------------------------------------------------------------
-- Ends of Spans
------------------------------------------------------------

namespace CommentSpan

/- A line and a column at which one of the tokens of the line starts. -/
def IsStart (tokens : Nat → List Token) (place : Nat × Nat) : Prop :=
  ∃ t ∈ tokens place.1, t.start = place.2

/- A line and a column at which one of the tokens of the line stops. -/
def IsStop (tokens : Nat → List Token) (place : Nat × Nat) : Prop :=
  ∃ t ∈ tokens place.1, t.stop = place.2

/- A start that was reached before, or one in a line above some line. -/
def ReachesUp
    (tokens : Nat → List Token)
    (line : Nat)
    (reached place : Nat × Nat) : Prop :=
  place = reached ∨ (place.1 < line ∧ IsStart tokens place)

/- A stop that was reached before, or one in the lines that remain. -/
def ReachesDown
    (tokens : Nat → List Token)
    (line remaining : Nat)
    (reached place : Nat × Nat) : Prop :=
  place = reached ∨
    (line ≤ place.1 ∧ place.1 < line + remaining ∧ IsStop tokens place)

variable {tokens : Nat → List Token}
variable {scope : Scope}

/- A walk ends at the token it starts from, or at one of the others. -/
theorem mem_of_walk
    (scope : Scope)
    (stops : Token → Bool)
    (rest : List Token) :
    ∀ current : Token,
      (walk scope stops current rest).1 ∈ current :: rest := by
  induction rest with
  | nil =>
      intro current
      exact List.mem_cons_self
  | cons next rest ih =>
      intro current
      unfold walk
      split
      · exact List.mem_cons_of_mem _ (ih next)
      · exact List.mem_cons_self

/- Walking up ends where it began, or at a token of a line before. -/
theorem walkUp_reaches
    (line : Nat) :
    ∀ reached : Nat × Nat,
      ReachesUp tokens line reached
        ((walkUp scope line reached).eval tokens) := by
  induction line with
  | zero =>
      intro reached
      exact Or.inl rfl
  | succ line ih =>
      intro reached
      simp only [walkUp, TokenQuery.eval_bind, TokenQuery.eval_tokensOf]
      split
      · rcases ih reached with hSame | ⟨hLine, hStart⟩
        · exact Or.inl hSame
        · exact Or.inr ⟨by omega, hStart⟩
      · next token before hTokens =>
          split
          · have hWalk := mem_of_walk scope Token.isOpenMark before token
            rw [← hTokens, List.mem_reverse] at hWalk
            have hHere :
                IsStart tokens
                  (line,
                    (walk scope Token.isOpenMark token before).1.start) :=
              ⟨_, hWalk, rfl⟩
            split
            · rcases ih (line, _) with hSame | ⟨hLine, hStart⟩
              · rw [hSame]
                exact Or.inr ⟨Nat.lt_succ_self line, hHere⟩
              · exact Or.inr ⟨by omega, hStart⟩
            · exact Or.inr ⟨Nat.lt_succ_self line, hHere⟩
          · exact Or.inl rfl

/- Walking down ends where it began, or at a token of a line after. -/
theorem walkDown_reaches
    (remaining : Nat) :
    ∀ (line : Nat) (reached : Nat × Nat),
      ReachesDown tokens line remaining reached
        ((walkDown scope remaining line reached).eval tokens) := by
  induction remaining with
  | zero =>
      intro line reached
      exact Or.inl rfl
  | succ remaining ih =>
      intro line reached
      simp only [walkDown, TokenQuery.eval_bind,
        TokenQuery.eval_tokensOf]
      split
      · rcases ih (line + 1) reached with hSame | ⟨hFrom, hTo, hStop⟩
        · exact Or.inl hSame
        · exact Or.inr ⟨by omega, by omega, hStop⟩
      · next token after hTokens =>
          split
          · have hWalk := mem_of_walk scope Token.isCloseMark after token
            rw [← hTokens] at hWalk
            have hHere :
                IsStop tokens
                  (line,
                    (walk scope Token.isCloseMark token after).1.stop) :=
              ⟨_, hWalk, rfl⟩
            split
            · rcases ih (line + 1) (line, _) with
                hSame | ⟨hFrom, hTo, hStop⟩
              · rw [hSame]
                exact Or.inr ⟨Nat.le_refl _, by omega, hHere⟩
              · exact Or.inr ⟨by omega, by omega, hStop⟩
            · have hLt : line < line + (remaining + 1) := by omega
              exact Or.inr ⟨Nat.le_refl _, hLt, hHere⟩
          · exact Or.inl rfl

section Merging

variable {lines : Array Bytes}
variable {policy : Indentation}
variable {text : Bytes}

/- Merging lines above ends where it began, or in a line before. -/
theorem mergeUp_reaches
    (line : Nat) :
    ∀ reached : Nat × Nat,
      ReachesUp tokens line reached
        ((mergeUp lines scope policy text line reached).eval
          tokens) := by
  induction line with
  | zero =>
      intro reached
      exact Or.inl rfl
  | succ line ih =>
      intro reached
      unfold mergeUp
      rw [TokenQuery.eval_bind]
      split
      · exact Or.inl rfl
      · next run ts hOnly =>
          rcases LineRun.within_of_onlyIn hOnly with ⟨rfl, _, hWithin⟩
          rcases LineRun.exists_startColumn hWithin with
            ⟨t, hToken, hColumn⟩
          have hHere :
              IsStart tokens (line, run.startColumn (tokens line)) :=
            ⟨t, List.mem_of_getElem? hToken, hColumn.symm⟩
          split
          · rcases ih (line, _) with hSame | ⟨hLine, hStart⟩
            · rw [hSame]
              exact Or.inr ⟨Nat.lt_succ_self line, hHere⟩
            · exact Or.inr ⟨by omega, hStart⟩
          · exact Or.inl rfl

/- Merging lines below ends where it began, or in a line after. -/
theorem mergeDown_reaches
    (remaining : Nat) :
    ∀ (line : Nat) (reached : Nat × Nat),
      ReachesDown tokens line remaining reached
        ((mergeDown lines scope policy text remaining line
          reached).eval tokens) := by
  induction remaining with
  | zero =>
      intro line reached
      exact Or.inl rfl
  | succ remaining ih =>
      intro line reached
      unfold mergeDown
      rw [TokenQuery.eval_bind]
      split
      · exact Or.inl rfl
      · next run ts hOnly =>
          rcases LineRun.within_of_onlyIn hOnly with ⟨rfl, _, hWithin⟩
          rcases LineRun.exists_stopColumn hWithin with
            ⟨t, hToken, hColumn⟩
          have hHere :
              IsStop tokens (line, run.stopColumn (tokens line)) :=
            ⟨t, List.mem_of_getElem? hToken, hColumn.symm⟩
          split
          · rcases ih (line + 1) (line, _) with
              hSame | ⟨hFrom, hTo, hStop⟩
            · rw [hSame]
              exact Or.inr ⟨Nat.le_refl _, by omega, hHere⟩
            · exact Or.inr ⟨by omega, by omega, hStop⟩
          · exact Or.inl rfl

end Merging

------------------------------------------------------------
-- Spans
------------------------------------------------------------

/-
  A span around a token of a line: it goes from the start of a
  token to the stop of one, holds the token, and does not leave
  the document.
-/
structure Around
    (lines : Array Bytes)
    (tokens : Nat → List Token)
    (line : Nat)
    (token : Token)
    (span : CommentSpan) : Prop where
  starts : IsStart tokens (span.startLine, span.startColumn)
  stops : IsStop tokens (span.stopLine, span.stopColumn)
  startLine_le : span.startLine ≤ line
  le_stopLine : line ≤ span.stopLine
  stopLine_lt : span.stopLine < lines.size
  start_le : span.startLine = line → span.startColumn ≤ token.start
  le_stop : span.stopLine = line → token.stop ≤ span.stopColumn

variable {lines : Array Bytes}
variable {line : Nat}
variable {token : Token}
variable {span : CommentSpan}

/- A place that the token touches lies in the span. -/
theorem holds_of_around
    {column : Nat}
    (hAround : Around lines tokens line token span)
    (hStart : token.start ≤ column)
    (hStop : column ≤ token.stop) :
    span.Holds line column where
  start_le := by
    rcases Nat.lt_or_eq_of_le hAround.startLine_le with hBefore | hSame
    · exact Or.inl hBefore
    · have hColumn := hAround.start_le hSame
      exact Or.inr ⟨hSame, by omega⟩
  le_stop := by
    rcases Nat.lt_or_eq_of_le hAround.le_stopLine with hAfter | hSame
    · exact Or.inl hAfter
    · have hColumn := hAround.le_stop hSame.symm
      exact Or.inr ⟨hSame, by omega⟩

/-
  A span is around a token if each of its ends is one reached in
  the line of the token, or lies in a line further on.
-/
theorem around_of_reached
    {start stop start' stop' : Nat × Nat}
    (hLine : line < lines.size)
    (hStartLine : start.1 = line)
    (hStopLine : stop.1 = line)
    (hIsStart : IsStart tokens start)
    (hIsStop : IsStop tokens stop)
    (hStart : start.2 ≤ token.start)
    (hStop : token.stop ≤ stop.2)
    (hUp : ReachesUp tokens line start start')
    (hDown :
      ReachesDown tokens (line + 1) (lines.size - (line + 1)) stop
        stop') :
    Around lines tokens line token
      ⟨start'.1, start'.2, stop'.1, stop'.2⟩ := by
  constructor
  case starts =>
    rcases hUp with rfl | ⟨_, hOther⟩
    · exact hIsStart
    · exact hOther
  case stops =>
    rcases hDown with rfl | ⟨_, _, hOther⟩
    · exact hIsStop
    · exact hOther
  case startLine_le =>
    rcases hUp with rfl | ⟨hBefore, _⟩
    · exact Nat.le_of_eq hStartLine
    · exact Nat.le_of_lt hBefore
  case le_stopLine =>
    rcases hDown with rfl | ⟨hAfter, _, _⟩
    · exact Nat.le_of_eq hStopLine.symm
    · exact Nat.le_of_succ_le hAfter
  case stopLine_lt =>
    change stop'.1 < lines.size
    rcases hDown with rfl | ⟨_, hInside, _⟩
    · omega
    · omega
  case start_le =>
    intro hSame
    rcases hUp with rfl | ⟨hBefore, _⟩
    · exact hStart
    · exact absurd hSame (Nat.ne_of_lt hBefore)
  case le_stop =>
    intro hSame
    rcases hDown with rfl | ⟨hAfter, _, _⟩
    · exact hStop
    · exact absurd hSame (Nat.ne_of_gt hAfter)

/- A block comment is around its token. -/
theorem around_ofBlock
    {position : Position}
    {m : CommentMatch}
    (hTokens : Tokens.Partitioned lines tokens)
    (hFound : CommentMatch.Located lines tokens position m token) :
    Around lines tokens m.line token
      ((ofBlock lines.size m).eval tokens) := by
  have hPartition := hTokens m.line hFound.line_lt
  have hToken := hFound.getElem_eq
  have hDefault :
      (tokens m.line).getD m.tokenIndex default = token := by
    rw [List.getD_eq_getElem?_getD, hToken]
    rfl
  unfold ofBlock
  simp only [TokenQuery.eval_bind, TokenQuery.eval_tokensOf, hDefault]
  -- Both walks come to tokens of the line on their side of the token.
  have hFirst :=
    mem_of_walk m.scope Token.isOpenMark
      ((tokens m.line).take m.tokenIndex).reverse token
  have hLast :=
    mem_of_walk m.scope Token.isCloseMark
      ((tokens m.line).drop (m.tokenIndex + 1)) token
  generalize
    walk m.scope Token.isOpenMark token
      ((tokens m.line).take m.tokenIndex).reverse = up at hFirst ⊢
  generalize
    walk m.scope Token.isCloseMark token
      ((tokens m.line).drop (m.tokenIndex + 1)) = down at hLast ⊢
  have hStart : up.1 ∈ tokens m.line ∧ up.1.start ≤ token.start := by
    rcases List.mem_cons.mp hFirst with hSame | hBefore
    · rw [hSame]
      exact ⟨List.mem_of_getElem? hToken, Nat.le_refl _⟩
    · have hTake := List.mem_reverse.mp hBefore
      exact
        ⟨List.mem_of_mem_take hTake,
          Tokens.start_le_of_mem_take hPartition hToken hTake⟩
  have hStop : down.1 ∈ tokens m.line ∧ token.stop ≤ down.1.stop := by
    rcases List.mem_cons.mp hLast with hSame | hAfter
    · rw [hSame]
      exact ⟨List.mem_of_getElem? hToken, Nat.le_refl _⟩
    · exact
        ⟨List.mem_of_mem_drop hAfter,
          Tokens.stop_le_of_mem_drop hPartition hToken hAfter⟩
  have hReached :
      ∀ {start stop : Nat × Nat},
        ReachesUp tokens m.line (m.line, up.1.start) start →
          ReachesDown tokens (m.line + 1) (lines.size - (m.line + 1))
              (m.line, down.1.stop) stop →
            Around lines tokens m.line token
              ⟨start.1, start.2, stop.1, stop.2⟩ :=
    around_of_reached hFound.line_lt rfl rfl ⟨up.1, hStart.1, rfl⟩
      ⟨down.1, hStop.1, rfl⟩ hStart.2 hStop.2
  split
  · split
    · simp only [TokenQuery.eval_bind, TokenQuery.eval_pure]
      exact hReached (walkUp_reaches _ _) (walkDown_reaches _ _ _)
    · simp only [TokenQuery.eval_bind, TokenQuery.eval_pure]
      exact hReached (walkUp_reaches _ _) (Or.inl rfl)
  · split
    · simp only [TokenQuery.eval_bind, TokenQuery.eval_pure]
      exact hReached (Or.inl rfl) (walkDown_reaches _ _ _)
    · exact hReached (Or.inl rfl) (Or.inl rfl)

/- A line comment is around its token. -/
theorem around_ofLine
    {position : Position}
    {m : CommentMatch}
    (hTokens : Tokens.Partitioned lines tokens)
    (hFound : CommentMatch.Located lines tokens position m token)
    (policy? : Option Indentation) :
    Around lines tokens m.line token
      ((ofLine lines m policy?).eval tokens) := by
  have hPartition := hTokens m.line hFound.line_lt
  have hToken := hFound.getElem_eq
  have hWithin :=
    LineRun.within_around (List.getElem?_eq_some_iff.mp hToken).1 m.scope
  rcases LineRun.exists_startColumn hWithin with
    ⟨first, hFirst, hStartColumn⟩
  rcases LineRun.exists_stopColumn hWithin with
    ⟨last, hLast, hStopColumn⟩
  have hStart :=
    (Tokens.le_of_index_le hPartition hFirst hToken hWithin.first_le).1
  have hStop :=
    (Tokens.le_of_index_le hPartition hToken hLast hWithin.le_last).2
  have hReached :
      ∀ {start stop : Nat × Nat},
        ReachesUp tokens m.line (m.line, first.start) start →
          ReachesDown tokens (m.line + 1) (lines.size - (m.line + 1))
              (m.line, last.stop) stop →
            Around lines tokens m.line token
              ⟨start.1, start.2, stop.1, stop.2⟩ :=
    around_of_reached hFound.line_lt rfl rfl
      ⟨first, List.mem_of_getElem? hFirst, rfl⟩
      ⟨last, List.mem_of_getElem? hLast, rfl⟩ hStart hStop
  unfold ofLine
  simp only [TokenQuery.eval_bind, TokenQuery.eval_tokensOf,
    hStartColumn, hStopColumn]
  split
  · exact hReached (Or.inl rfl) (Or.inl rfl)
  · simp only [TokenQuery.eval_bind]
    split
    · simp only [TokenQuery.eval_bind, TokenQuery.eval_pure]
      exact hReached (mergeUp_reaches _ _) (mergeDown_reaches _ _ _)
    · exact hReached (Or.inl rfl) (Or.inl rfl)

/- The whole comment is around the token that was found. -/
theorem around_ofMatch
    {position : Position}
    {m : CommentMatch}
    (hTokens : Tokens.Partitioned lines tokens)
    (hFound : CommentMatch.Located lines tokens position m token)
    (policy? : Option Indentation) :
    Around lines tokens m.line token
      ((ofMatch lines m policy?).eval tokens) := by
  unfold ofMatch
  split
  · exact around_ofLine hTokens hFound policy?
  · exact around_ofBlock hTokens hFound

end CommentSpan

end Marginalia

import Marginalia.Proofs.Comment.Spans

/-
  This file repeats the lookup of a comment with checks: whenever
  the text of a line, the tokens of a line or a token of a line
  is asked for, it has to exist, or else the lookup fails.  It is
  proved that the checked lookup never fails, and that it has the
  same outcome.  So what a lookup reads where nothing exists does
  not matter.

  Key definitions include:
    * `CheckedQuery`, `CheckedQuery.eval`
    * `CheckedQuery.textOf`, `CheckedQuery.tokensOf`
    * `CheckedQuery.tokenAt`
    * `CheckedLookup.compute`
  The main statements are:
    * `CheckedLookup.eval_locate`
    * `CheckedLookup.eval_ofMatch`
    * `CheckedLookup.eval_compute`
-/

namespace Marginalia

------------------------------------------------------------
-- Questions That May Fail
------------------------------------------------------------

/- A question that fails when it asks for what does not exist. -/
abbrev CheckedQuery :=
  OptionT TokenQuery

namespace CheckedQuery

variable {α β : Type}

/- The answer to a question, if it does not fail. -/
def eval (tokens : Nat → List Token) (q : CheckedQuery α) : Option α :=
  TokenQuery.eval tokens q.run

/- The text of a line that exists. -/
def textOf (lines : Array Bytes) (line : Nat) : CheckedQuery Bytes :=
  OptionT.mk (pure lines[line]?)

/- The tokens of a line that exists. -/
def tokensOf (lines : Array Bytes) (line : Nat) :
    CheckedQuery (List Token) :=
  if line < lines.size then OptionT.lift (TokenQuery.tokensOf line)
  else failure

/- The token of an index that exists. -/
def tokenAt (ts : List Token) (index : Nat) : CheckedQuery Token :=
  OptionT.mk (pure ts[index]?)

@[simp]
theorem eval_pure
    (tokens : Nat → List Token)
    (value : α) :
    eval tokens (pure value) = some value :=
  rfl

@[simp]
theorem eval_bind
    (tokens : Nat → List Token)
    (q : CheckedQuery α)
    (f : α → CheckedQuery β) :
    eval tokens (q >>= f) =
      (eval tokens q).bind (fun value => eval tokens (f value)) := by
  unfold eval
  rw [OptionT.run_bind, Option.elimM, TokenQuery.eval_bind]
  cases TokenQuery.eval tokens q.run <;> rfl

/- The text of a line of the document. -/
theorem eval_textOf
    {lines : Array Bytes}
    {line : Nat}
    (tokens : Nat → List Token)
    (hLine : line < lines.size) :
    eval tokens (textOf lines line) = some (lines.getD line []) := by
  change lines[line]? = _
  simp [Array.getD_eq_getD_getElem?, hLine]

/- The tokens of a line of the document. -/
theorem eval_tokensOf
    {lines : Array Bytes}
    {line : Nat}
    (tokens : Nat → List Token)
    (hLine : line < lines.size) :
    eval tokens (tokensOf lines line) = some (tokens line) := by
  unfold tokensOf
  rw [if_pos hLine]
  rfl

/- A token of a line. -/
theorem eval_tokenAt
    {ts : List Token}
    {index : Nat}
    {token : Token}
    (tokens : Nat → List Token)
    (hToken : ts[index]? = some token) :
    eval tokens (tokenAt ts index) = some token :=
  hToken

end CheckedQuery

------------------------------------------------------------
-- The Checked Lookup
------------------------------------------------------------

namespace CheckedLookup

open CheckedQuery

/- The comment below a position, with checks. -/
def below (lines : Array Bytes) :
    Nat → Nat → CheckedQuery (Option CommentMatch)
| 0, _ => pure none
| remaining + 1, line => do
    let text ← textOf lines line
    if text.isBlankLine then
      below lines remaining (line + 1)
    else
      let ts ← tokensOf lines line
      let index := firstContent text ts
      if index = ts.length then
        below lines remaining (line + 1)
      else
        let token ← tokenAt ts index
        pure
          (token.commentScope?.map
            (fun scope => ⟨line, index, scope, .below⟩))

/- The comment that a position is about, with checks. -/
def locate
    (lines : Array Bytes)
    (position : Position) : CheckedQuery (Option CommentMatch) := do
  if position.line < 0 ∨ (lines.size : Int) ≤ position.line then
    pure none
  else
    let line := position.line.toNat
    let text ← textOf lines line
    let column := Utf16.toByteColumn text position.character
    let ts ← tokensOf lines line
    match CommentMatch.indexAt? text ts column with
    | none => below lines (lines.size - (line + 1)) (line + 1)
    | some index =>
        let token ← tokenAt ts index
        match token.commentScope? with
        | none => below lines (lines.size - (line + 1)) (line + 1)
        | some scope => pure (some ⟨line, index, scope, .exact⟩)

/- Walk up through the lines before a line, with checks. -/
def walkUp
    (lines : Array Bytes)
    (scope : Scope) :
    Nat → Nat × Nat → CheckedQuery (Nat × Nat)
| 0, reached => pure reached
| line + 1, reached => do
    match (← tokensOf lines line).reverse with
    | [] => walkUp lines scope line reached
    | token :: before =>
        if token.carries scope then
          let (first, goesOn) :=
            CommentSpan.walk scope Token.isOpenMark token before
          if goesOn then walkUp lines scope line (line, first.start)
          else pure (line, first.start)
        else pure reached

/- Walk down through the next lines, with checks. -/
def walkDown
    (lines : Array Bytes)
    (scope : Scope) :
    Nat → Nat → Nat × Nat → CheckedQuery (Nat × Nat)
| 0, _, reached => pure reached
| remaining + 1, line, reached => do
    match ← tokensOf lines line with
    | [] => walkDown lines scope remaining (line + 1) reached
    | token :: after =>
        if token.carries scope then
          let (last, goesOn) :=
            CommentSpan.walk scope Token.isCloseMark token after
          if goesOn then
            walkDown lines scope remaining (line + 1) (line, last.stop)
          else pure (line, last.stop)
        else pure reached

/- The block comment around a token, with checks. -/
def ofBlock
    (lines : Array Bytes)
    (found : CommentMatch) : CheckedQuery CommentSpan := do
  let line := found.line
  let ts ← tokensOf lines line
  let token ← tokenAt ts found.tokenIndex
  let (first, goesUp) :=
    CommentSpan.walk found.scope Token.isOpenMark token
      (ts.take found.tokenIndex).reverse
  let start ←
    if goesUp then walkUp lines found.scope line (line, first.start)
    else pure (line, first.start)
  let (last, goesDown) :=
    CommentSpan.walk found.scope Token.isCloseMark token
      (ts.drop (found.tokenIndex + 1))
  let stop ←
    if goesDown then
      walkDown lines found.scope (lines.size - (line + 1)) (line + 1)
        (line, last.stop)
    else pure (line, last.stop)
  pure ⟨start.1, start.2, stop.1, stop.2⟩

/- The column where a run starts, with checks. -/
def startColumn (run : LineRun) (ts : List Token) : CheckedQuery Nat := do
  let token ← tokenAt ts run.first
  pure token.start

/- The column where a run stops, with checks. -/
def stopColumn (run : LineRun) (ts : List Token) : CheckedQuery Nat := do
  let token ← tokenAt ts run.last
  pure token.stop

/- The comment of a line that holds nothing else, with checks. -/
def onlyIn
    (lines : Array Bytes)
    (scope : Scope)
    (line : Nat) : CheckedQuery (Option (LineRun × List Token)) := do
  let text ← textOf lines line
  if text.isBlankLine then pure none
  else
    let ts ← tokensOf lines line
    pure ((LineRun.only? text ts scope).map (fun run => (run, ts)))

/- Merge the lines before a line, with checks. -/
def mergeUp
    (lines : Array Bytes)
    (scope : Scope)
    (policy : Indentation)
    (text : Bytes) :
    Nat → Nat × Nat → CheckedQuery (Nat × Nat)
| 0, reached => pure reached
| line + 1, reached => do
    match ← onlyIn lines scope line with
    | none => pure reached
    | some (run, ts) =>
        let other ← textOf lines line
        if CommentSpan.compatible policy other text then
          let column ← startColumn run ts
          mergeUp lines scope policy text line (line, column)
        else pure reached

/- Merge the next lines, with checks. -/
def mergeDown
    (lines : Array Bytes)
    (scope : Scope)
    (policy : Indentation)
    (text : Bytes) :
    Nat → Nat → Nat × Nat → CheckedQuery (Nat × Nat)
| 0, _, reached => pure reached
| remaining + 1, line, reached => do
    match ← onlyIn lines scope line with
    | none => pure reached
    | some (run, ts) =>
        let other ← textOf lines line
        if CommentSpan.compatible policy other text then
          let column ← stopColumn run ts
          mergeDown lines scope policy text remaining (line + 1)
            (line, column)
        else pure reached

/- The line comment around a token, with checks. -/
def ofLine
    (lines : Array Bytes)
    (found : CommentMatch)
    (policy? : Option Indentation) : CheckedQuery CommentSpan := do
  let line := found.line
  let ts ← tokensOf lines line
  let run := LineRun.around ts found.tokenIndex found.scope
  let first ← startColumn run ts
  let last ← stopColumn run ts
  match policy? with
  | none => pure ⟨line, first, line, last⟩
  | some policy => do
      let own ← onlyIn lines found.scope line
      if own.any (fun o => o.1.first == run.first) then
        let text ← textOf lines line
        let start ←
          mergeUp lines found.scope policy text line (line, first)
        let stop ←
          mergeDown lines found.scope policy text
            (lines.size - (line + 1)) (line + 1) (line, last)
        pure ⟨start.1, start.2, stop.1, stop.2⟩
      else pure ⟨line, first, line, last⟩

/- The whole comment that a token belongs to, with checks. -/
def ofMatch
    (lines : Array Bytes)
    (found : CommentMatch)
    (policy? : Option Indentation) : CheckedQuery CommentSpan :=
  if found.scope.isLineComment then ofLine lines found policy?
  else ofBlock lines found

/- What a span holds of the next lines, with checks. -/
def parts
    (lines : Array Bytes)
    (span : CommentSpan) : Nat → Nat → CheckedQuery (List LinePart)
| 0, _ => pure []
| remaining + 1, line => do
    let ts ← tokensOf lines line
    let text ← textOf lines line
    let rest ← parts lines span remaining (line + 1)
    pure (Extract.part span line text ts :: rest)

/- The range of a span, with checks. -/
def toRange
    (lines : Array Bytes)
    (span : CommentSpan) : CheckedQuery Range := do
  let first ← textOf lines span.startLine
  let last ← textOf lines span.stopLine
  pure
    { start :=
        ⟨span.startLine, Utf16.ofByteColumn first span.startColumn⟩
      stop := ⟨span.stopLine, Utf16.ofByteColumn last span.stopColumn⟩ }

/- Look up the comment that a position is about, with checks. -/
def compute
    (lines : Array Bytes)
    (settings : MergeSettings)
    (position : Position) : CheckedQuery CommentLookup := do
  match ← locate lines position with
  | none => pure .noMatch
  | some m => do
      let span ← ofMatch lines m settings.policy?
      let ps ←
        parts lines span (Extract.lineCount lines span) span.startLine
      let text := Extract.joinLines (Extract.strip m.scope ps)
      if text.isEmpty then pure .emptyAfterStrip
      else
        let range ← toRange lines span
        let block : CommentBlock :=
          { range := range
            comment := text
            isLineComment := m.scope.isLineComment
            humanize := Identifier.isIdentifier text
            scope := m.scope }
        pure
          (if block.spelled.isEmpty then .emptyAfterStrip
            else .found block)

------------------------------------------------------------
-- No Check Fails
------------------------------------------------------------

variable {lines : Array Bytes}
variable {tokens : Nat → List Token}
variable {scope : Scope}

/- The index of a token with content, unless all are white. -/
theorem exists_firstContent
    {text : Bytes}
    {ts : List Token}
    (hSome : firstContent text ts ≠ ts.length) :
    ∃ token, ts[firstContent text ts]? = some token := by
  have hLe : firstContent text ts ≤ ts.length := List.findIdx_le_length
  exact ⟨_, List.getElem?_eq_getElem (Nat.lt_of_le_of_ne hLe hSome)⟩

/- Looking below a position never fails. -/
theorem eval_below
    (remaining : Nat) :
    ∀ {line : Nat},
      line + remaining ≤ lines.size →
        eval tokens (below lines remaining line) =
          some
            ((CommentMatch.below lines remaining line).eval tokens) := by
  induction remaining with
  | zero =>
      intro line _
      rfl
  | succ remaining ih =>
      intro line hLines
      have hLine : line < lines.size := by omega
      have hRest := @ih (line + 1) (by omega)
      unfold below CommentMatch.below
      rw [eval_bind, eval_textOf tokens hLine, Option.bind_some]
      generalize lines.getD line [] = text
      dsimp only
      split
      · exact hRest
      · rw [eval_bind, eval_tokensOf tokens hLine, Option.bind_some,
          TokenQuery.eval_bind, TokenQuery.eval_tokensOf]
        split
        · exact hRest
        · next hSome =>
            rcases exists_firstContent hSome with ⟨token, hToken⟩
            rw [eval_bind, eval_tokenAt tokens hToken, Option.bind_some]
            simp only [CommentMatch.ofToken?, hToken]
            rfl

/- The token that is found at a column exists. -/
theorem exists_indexAt?
    {text : Bytes}
    {ts : List Token}
    {column index : Nat}
    (hIndex : CommentMatch.indexAt? text ts column = some index) :
    ∃ token, ts[index]? = some token := by
  have hLt : index < ts.length := by
    unfold CommentMatch.indexAt? at hIndex
    split at hIndex
    · next found hFound =>
        cases hIndex
        exact (List.findIdx?_eq_some_iff_getElem.mp hFound).1
    · split at hIndex
      · cases hIndex
      · next hEnd =>
          cases hIndex
          simp only [Bool.or_eq_true, List.isEmpty_iff, not_or] at hEnd
          have hPos := List.length_pos_iff.mpr hEnd.1.1
          omega
  exact ⟨_, List.getElem?_eq_getElem hLt⟩

/- Finding the comment of a position never fails. -/
theorem eval_locate
    (position : Position) :
    eval tokens (locate lines position) =
      some ((CommentMatch.locate lines position).eval tokens) := by
  unfold locate CommentMatch.locate
  split
  · rfl
  · have hLine : position.line.toNat < lines.size := by omega
    have hBelow :=
      @eval_below lines tokens (lines.size - (position.line.toNat + 1))
        (position.line.toNat + 1) (by omega)
    dsimp only
    rw [eval_bind, eval_textOf tokens hLine, Option.bind_some, eval_bind,
      eval_tokensOf tokens hLine, Option.bind_some, TokenQuery.eval_bind,
      TokenQuery.eval_tokensOf]
    unfold CommentMatch.at?
    cases hIndex :
        CommentMatch.indexAt? (lines.getD position.line.toNat [])
          (tokens position.line.toNat)
          (Utf16.toByteColumn (lines.getD position.line.toNat [])
            position.character) with
    | none => exact hBelow
    | some index =>
        rcases exists_indexAt? hIndex with ⟨token, hToken⟩
        dsimp only
        rw [eval_bind, eval_tokenAt tokens hToken, Option.bind_some]
        simp only [CommentMatch.ofToken?, hToken]
        cases token.commentScope? with
        | none => exact hBelow
        | some scope => rfl

/- Walking up never fails. -/
theorem eval_walkUp
    (line : Nat) :
    ∀ reached : Nat × Nat,
      line ≤ lines.size →
        eval tokens (walkUp lines scope line reached) =
          some
            ((CommentSpan.walkUp scope line reached).eval tokens) := by
  induction line with
  | zero =>
      intro reached _
      rfl
  | succ line ih =>
      intro reached hLines
      unfold walkUp CommentSpan.walkUp
      rw [eval_bind, eval_tokensOf tokens hLines, Option.bind_some,
        TokenQuery.eval_bind, TokenQuery.eval_tokensOf]
      cases (tokens line).reverse with
      | nil => exact ih reached (Nat.le_of_succ_le hLines)
      | cons token before =>
          dsimp only
          split
          · split
            · exact ih _ (Nat.le_of_succ_le hLines)
            · rfl
          · rfl

/- Walking down never fails. -/
theorem eval_walkDown
    (remaining : Nat) :
    ∀ (line : Nat) (reached : Nat × Nat),
      line + remaining ≤ lines.size →
        eval tokens (walkDown lines scope remaining line reached) =
          some
            ((CommentSpan.walkDown scope remaining line reached).eval
              tokens) := by
  induction remaining with
  | zero =>
      intro line reached _
      rfl
  | succ remaining ih =>
      intro line reached hLines
      unfold walkDown CommentSpan.walkDown
      rw [eval_bind, eval_tokensOf tokens (by omega), Option.bind_some,
        TokenQuery.eval_bind, TokenQuery.eval_tokensOf]
      cases tokens line with
      | nil => exact ih (line + 1) reached (by omega)
      | cons token after =>
          dsimp only
          split
          · split
            · exact ih (line + 1) _ (by omega)
            · rfl
          · rfl

/- Finding the extent of a block comment never fails. -/
theorem eval_ofBlock
    {position : Position}
    {m : CommentMatch}
    {token : Token}
    (hFound : CommentMatch.Located lines tokens position m token) :
    eval tokens (ofBlock lines m) =
      some ((CommentSpan.ofBlock lines.size m).eval tokens) := by
  have hLine := hFound.line_lt
  have hToken := hFound.getElem_eq
  have hDefault :
      (tokens m.line).getD m.tokenIndex default = token := by
    rw [List.getD_eq_getElem?_getD, hToken]
    rfl
  unfold ofBlock CommentSpan.ofBlock
  rw [eval_bind, eval_tokensOf tokens hLine, Option.bind_some, eval_bind,
    eval_tokenAt tokens hToken, Option.bind_some, TokenQuery.eval_bind,
    TokenQuery.eval_tokensOf, hDefault]
  have hUp := @eval_walkUp lines tokens m.scope m.line
  have hDown :=
    @eval_walkDown lines tokens m.scope (lines.size - (m.line + 1))
      (m.line + 1)
  dsimp only
  split
  · rw [eval_bind, hUp _ (Nat.le_of_lt hLine), Option.bind_some,
      TokenQuery.eval_bind]
    split
    · rw [eval_bind, hDown _ (by omega), Option.bind_some,
        TokenQuery.eval_bind]
      rfl
    · rfl
  · rw [eval_bind, eval_pure, Option.bind_some, TokenQuery.eval_bind,
      TokenQuery.eval_pure]
    split
    · rw [eval_bind, hDown _ (by omega), Option.bind_some,
        TokenQuery.eval_bind]
      rfl
    · rfl

/- The column where a run starts is that of a token. -/
theorem eval_startColumn
    {ts : List Token}
    {index : Nat}
    {run : LineRun}
    (hWithin : LineRun.Within ts index run) :
    eval tokens (startColumn run ts) = some (run.startColumn ts) := by
  rcases LineRun.exists_startColumn hWithin with ⟨t, hToken, hColumn⟩
  unfold startColumn
  rw [eval_bind, eval_tokenAt tokens hToken, hColumn]
  rfl

/- The column where a run stops is that of a token. -/
theorem eval_stopColumn
    {ts : List Token}
    {index : Nat}
    {run : LineRun}
    (hWithin : LineRun.Within ts index run) :
    eval tokens (stopColumn run ts) = some (run.stopColumn ts) := by
  rcases LineRun.exists_stopColumn hWithin with ⟨t, hToken, hColumn⟩
  unfold stopColumn
  rw [eval_bind, eval_tokenAt tokens hToken, hColumn]
  rfl

/- Looking at a whole line never fails. -/
theorem eval_onlyIn
    {line : Nat}
    (hLine : line < lines.size) :
    eval tokens (onlyIn lines scope line) =
      some ((LineRun.onlyIn lines scope line).eval tokens) := by
  unfold onlyIn LineRun.onlyIn
  rw [eval_bind, eval_textOf tokens hLine, Option.bind_some]
  generalize lines.getD line [] = text
  dsimp only
  split
  · rfl
  · rw [eval_bind, eval_tokensOf tokens hLine, Option.bind_some,
      TokenQuery.eval_bind, TokenQuery.eval_tokensOf]
    rfl

/- Merging lines above never fails. -/
theorem eval_mergeUp
    {policy : Indentation}
    {text : Bytes}
    (line : Nat) :
    ∀ reached : Nat × Nat,
      line ≤ lines.size →
        eval tokens (mergeUp lines scope policy text line reached) =
          some
            ((CommentSpan.mergeUp lines scope policy text line
              reached).eval tokens) := by
  induction line with
  | zero =>
      intro reached _
      rfl
  | succ line ih =>
      intro reached hLines
      unfold mergeUp CommentSpan.mergeUp
      rw [eval_bind, eval_onlyIn hLines, Option.bind_some,
        TokenQuery.eval_bind]
      cases hOnly : (LineRun.onlyIn lines scope line).eval tokens with
      | none => rfl
      | some own =>
          rcases own with ⟨run, ts⟩
          rcases LineRun.within_of_onlyIn hOnly with ⟨_, _, hWithin⟩
          dsimp only
          rw [eval_bind, eval_textOf tokens hLines, Option.bind_some]
          generalize lines.getD line [] = other
          split
          · rw [eval_bind, eval_startColumn hWithin, Option.bind_some]
            exact ih _ (Nat.le_of_succ_le hLines)
          · rfl

/- Merging lines below never fails. -/
theorem eval_mergeDown
    {policy : Indentation}
    {text : Bytes}
    (remaining : Nat) :
    ∀ (line : Nat) (reached : Nat × Nat),
      line + remaining ≤ lines.size →
        eval tokens
            (mergeDown lines scope policy text remaining line reached) =
          some
            ((CommentSpan.mergeDown lines scope policy text remaining
              line reached).eval tokens) := by
  induction remaining with
  | zero =>
      intro line reached _
      rfl
  | succ remaining ih =>
      intro line reached hLines
      have hLine : line < lines.size := by omega
      unfold mergeDown CommentSpan.mergeDown
      rw [eval_bind, eval_onlyIn hLine, Option.bind_some,
        TokenQuery.eval_bind]
      cases hOnly : (LineRun.onlyIn lines scope line).eval tokens with
      | none => rfl
      | some own =>
          rcases own with ⟨run, ts⟩
          rcases LineRun.within_of_onlyIn hOnly with ⟨_, _, hWithin⟩
          dsimp only
          rw [eval_bind, eval_textOf tokens hLine, Option.bind_some]
          generalize lines.getD line [] = other
          split
          · rw [eval_bind, eval_stopColumn hWithin, Option.bind_some]
            exact ih (line + 1) _ (by omega)
          · rfl

/- Finding the extent of a line comment never fails. -/
theorem eval_ofLine
    {position : Position}
    {m : CommentMatch}
    {token : Token}
    (hFound : CommentMatch.Located lines tokens position m token)
    (policy? : Option Indentation) :
    eval tokens (ofLine lines m policy?) =
      some ((CommentSpan.ofLine lines m policy?).eval tokens) := by
  have hLine := hFound.line_lt
  have hWithin :=
    LineRun.within_around
      (List.getElem?_eq_some_iff.mp hFound.getElem_eq).1 m.scope
  unfold ofLine CommentSpan.ofLine
  dsimp only
  rw [eval_bind, eval_tokensOf tokens hLine, Option.bind_some, eval_bind,
    eval_startColumn hWithin, Option.bind_some, eval_bind,
    eval_stopColumn hWithin, Option.bind_some, TokenQuery.eval_bind,
    TokenQuery.eval_tokensOf]
  cases policy? with
  | none => rfl
  | some policy =>
      have hText := eval_textOf tokens hLine
      generalize lines.getD m.line [] = text at hText ⊢
      dsimp only
      rw [eval_bind, eval_onlyIn hLine, Option.bind_some,
        TokenQuery.eval_bind]
      split
      · rw [eval_bind, hText, Option.bind_some,
          eval_bind, eval_mergeUp _ _ (Nat.le_of_lt hLine),
          Option.bind_some, eval_bind,
          eval_mergeDown _ _ _ (by omega), Option.bind_some,
          TokenQuery.eval_bind, TokenQuery.eval_bind]
        rfl
      · rfl

/- Finding the extent of a comment never fails. -/
theorem eval_ofMatch
    {position : Position}
    {m : CommentMatch}
    {token : Token}
    (hFound : CommentMatch.Located lines tokens position m token)
    (policy? : Option Indentation) :
    eval tokens (ofMatch lines m policy?) =
      some ((CommentSpan.ofMatch lines m policy?).eval tokens) := by
  unfold ofMatch CommentSpan.ofMatch
  split
  · exact eval_ofLine hFound policy?
  · exact eval_ofBlock hFound

/- Taking the text of lines never fails. -/
theorem eval_parts
    (span : CommentSpan)
    (remaining : Nat) :
    ∀ line : Nat,
      line + remaining ≤ lines.size →
        eval tokens (parts lines span remaining line) =
          some ((Extract.parts lines span remaining line).eval tokens) := by
  induction remaining with
  | zero =>
      intro line _
      rfl
  | succ remaining ih =>
      intro line hLines
      have hLine : line < lines.size := by omega
      unfold parts Extract.parts
      rw [eval_bind, eval_tokensOf tokens hLine, Option.bind_some,
        eval_bind, eval_textOf tokens hLine, Option.bind_some, eval_bind,
        ih (line + 1) (by omega), Option.bind_some,
        TokenQuery.eval_bind, TokenQuery.eval_tokensOf,
        TokenQuery.eval_bind]
      rfl

/- The range of a span that stands in the document. -/
theorem eval_toRange
    {span : CommentSpan}
    (hStart : span.startLine < lines.size)
    (hStop : span.stopLine < lines.size) :
    eval tokens (toRange lines span) = some (span.toRange lines) := by
  unfold toRange CommentSpan.toRange
  rw [eval_bind, eval_textOf tokens hStart, Option.bind_some, eval_bind,
    eval_textOf tokens hStop, Option.bind_some, eval_pure]

/-
  A checked lookup never fails, and its outcome is that of the
  lookup.  All that is asked of the tokens is that they partition
  the lines.
-/
theorem eval_compute
    (hTokens : Tokens.Partitioned lines tokens)
    (settings : MergeSettings)
    (position : Position) :
    eval tokens (compute lines settings position) =
      some
        ((CommentLookup.compute lines settings position).eval
          tokens) := by
  unfold compute CommentLookup.compute
  rw [eval_bind, eval_locate, Option.bind_some, TokenQuery.eval_bind]
  cases hFound : (CommentMatch.locate lines position).eval tokens with
  | none => rfl
  | some m =>
      rcases CommentMatch.located_of_locate hTokens hFound with
        ⟨token, hLocated⟩
      have hAround :=
        CommentSpan.around_ofMatch hTokens hLocated settings.policy?
      dsimp only
      rw [eval_bind, eval_ofMatch hLocated, Option.bind_some,
        TokenQuery.eval_bind]
      generalize
        (CommentSpan.ofMatch lines m settings.policy?).eval tokens = span
          at hAround ⊢
      have hStart : span.startLine < lines.size := by
        have hFirst := hAround.startLine_le
        have hLast := hLocated.line_lt
        omega
      have hCount :
          span.startLine + Extract.lineCount lines span ≤ lines.size := by
        unfold Extract.lineCount
        omega
      have hRange :=
        @eval_toRange lines tokens span hStart hAround.stopLine_lt
      unfold ExtractedText.ofSpan Extract.text?
      rw [eval_bind, eval_parts span _ _ hCount, Option.bind_some,
        TokenQuery.eval_bind, TokenQuery.eval_bind, TokenQuery.eval_bind]
      dsimp only
      split
      · rfl
      · rw [eval_bind, hRange, Option.bind_some]
        rfl

end CheckedLookup

end Marginalia

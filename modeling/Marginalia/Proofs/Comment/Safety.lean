import Marginalia.Proofs.Comment.Checked
import Marginalia.Proofs.Comment.Extraction
import Marginalia.Proofs.Token.Evaluation

/-
  This file proves that looking a comment up is safe, whatever
  the grammar, the document, the settings and the position are:
  every line comes to an end, nothing is read that does not
  exist, and a comment that is found stands inside the document,
  around the token it was found by, and says something.

  Key definitions include:
    * `TokenizedDocument.Partitioned`
    * `TokenizedDocument.Ends`
    * `CommentBlock.Inside`, `CommentBlock.Says`
    * `CommentSpan.Covers`
  The main statements are:
    * `TokenizedDocument.partitioned_tokensAt`
    * `TokenizedDocument.ends_of_partitioned`
    * `CommentBlock.inside_of_around`
    * `TokenizedDocument.lookup_safe`
-/

namespace Marginalia

------------------------------------------------------------
-- Tokenized Documents
------------------------------------------------------------

namespace TokenizedDocument

/-
  The tokens found so far partition their lines, and the stack
  they lead to is rooted.
-/
structure Partitioned (d : TokenizedDocument) : Prop where
  rooted : d.nextStack.Rooted
  partition :
    ∀ {line : Nat} {result : LineTokens},
      d.tokenized[line]? = some result →
        Tokens.Partition (d.lines.getD line []).length result.tokens

/- Nothing is wrong with a document without tokens. -/
theorem partitioned_create
    (grammar : Grammar)
    (document : Document)
    (maxLength : Nat) :
    Partitioned (create grammar document maxLength) where
  rooted := RuleStack.rooted_empty
  partition := by
    intro line result hResult
    cases hResult

/- The next line comes to an end, and its tokens partition it. -/
theorem exists_tokenizeLine_of_partitioned
    {d : TokenizedDocument}
    (hPartitioned : d.Partitioned)
    (text : Bytes) :
    ∃ result,
      tokenizeLine? d.grammar.engine.toEngine d.grammar text d.nextStack
            d.maxLength =
          some result ∧
        tokenizeLine d.grammar text d.nextStack d.maxLength = result ∧
          result.stack.Rooted ∧
            Tokens.Partition text.length result.tokens := by
  rcases
      exists_tokenizeLine?_eq_some d.grammar.engine.staysInside d.grammar
        hPartitioned.rooted text d.maxLength with
    ⟨result, hLine, hRooted⟩
  refine ⟨result, hLine, ?_, hRooted, ?_⟩
  · unfold tokenizeLine
    rw [hLine]
    rfl
  · exact
      partition_of_tokenizeLine? d.grammar.engine.staysInside
        hPartitioned.rooted hLine

/- The tokens of one more line partition it. -/
theorem partitioned_advance
    {d : TokenizedDocument}
    {text : Bytes}
    (hPartitioned : d.Partitioned)
    (hLine : d.lines[d.tokenized.size]? = some text) :
    (d.advance text).Partitioned := by
  rcases exists_tokenizeLine_of_partitioned hPartitioned text with
    ⟨made, _, hMade, hRooted, hPartition⟩
  constructor
  case rooted =>
    unfold nextStack advance
    rw [Array.back?_push, hMade]
    exact hRooted
  case partition =>
    intro line result hResult
    unfold advance at hResult ⊢
    dsimp only at hResult ⊢
    rw [hMade, Array.getElem?_push] at hResult
    split at hResult
    · next hLast =>
        cases hResult
        rw [hLast, Array.getD_eq_getD_getElem?, hLine]
        exact hPartition
    · exact hPartitioned.partition hResult

/- The tokens of more lines partition them. -/
theorem partitioned_extend
    (n : Nat) :
    ∀ {d : TokenizedDocument},
      d.Partitioned → (d.extend n).Partitioned := by
  induction n with
  | zero =>
      intro d hPartitioned
      exact hPartitioned
  | succ n ih =>
      intro d hPartitioned
      cases hLine : d.lines[d.tokenized.size]? with
      | none =>
          rw [extend_of_done (Array.getElem?_eq_none_iff.mp hLine)]
          exact hPartitioned
      | some text =>
          rw [extend_of_line hLine]
          exact ih (partitioned_advance hPartitioned hLine)

/- The tokens of a fresh document partition its lines. -/
theorem partitioned_tokensAt
    {d : TokenizedDocument}
    (hFresh : Fresh d)
    (hPartitioned : d.Partitioned) :
    Tokens.Partitioned d.lines d.tokensAt := by
  intro line hLine
  have hReached : line < (d.extend (line + 1)).tokenized.size := by
    rw [size_extend_of_fresh hFresh]
    omega
  have hLater :=
    (partitioned_extend (line + 1) hPartitioned).partition
      (Array.getElem?_eq_getElem hReached)
  rw [lines_extend] at hLater
  unfold tokensAt
  rw [Array.getElem?_eq_getElem hReached]
  exact hLater

/-
  However many lines are tokenized, the next one comes to an
  end.
-/
def Ends (d : TokenizedDocument) : Prop :=
  ∀ (n : Nat) (text : Bytes),
    d.lines[(d.extend n).tokenized.size]? = some text →
      ∃ result,
        tokenizeLine? d.grammar.engine.toEngine d.grammar text
            (d.extend n).nextStack d.maxLength =
          some result

/- Every line of a document comes to an end. -/
theorem ends_of_partitioned
    {d : TokenizedDocument}
    (hPartitioned : d.Partitioned) :
    d.Ends := by
  intro n text _
  rcases
      exists_tokenizeLine_of_partitioned
        (partitioned_extend n hPartitioned) text with
    ⟨result, hLine, _⟩
  rw [(setup_extend n d).1, (setup_extend n d).2] at hLine
  exact ⟨result, hLine⟩

end TokenizedDocument

/- There is no line feed in a line of a document. -/
theorem Document.lf_not_mem_lines
    (document : Document)
    (line : Nat) :
    Ascii.lf ∉ document.lines.toArray.getD line [] := by
  rw [Array.getD_eq_getD_getElem?, List.getElem?_toArray]
  cases hLine : document.lines[line]? with
  | none => exact List.not_mem_nil
  | some text =>
      rcases List.mem_map.mp (List.mem_of_getElem? hLine) with
        ⟨whole, hWhole, rfl⟩
      have hNone := Bytes.lf_not_mem_of_mem_splitLines _ whole hWhole
      unfold Document.dropReturn
      split
      · exact fun hByte => hNone (List.dropLast_subset _ hByte)
      · exact hNone

------------------------------------------------------------
-- Where a Comment Stands
------------------------------------------------------------

/- No number of the range reaches the limit. -/
structure Range.Below (limit : Int) (range : Range) : Prop where
  start_line : range.start.line < limit
  start_character : range.start.character < limit
  stop_line : range.stop.line < limit
  stop_character : range.stop.character < limit

namespace CommentBlock

/-
  The range of a comment lies inside the document: its lines
  exist, its ends are in order, and its columns are those of its
  lines.
-/
structure Inside (lines : Array Bytes) (block : CommentBlock) : Prop where
  line_nonneg : 0 ≤ block.range.start.line
  line_le : block.range.start.line ≤ block.range.stop.line
  line_lt : block.range.stop.line < lines.size
  start_le :
    block.range.start.line < block.range.stop.line ∨
      (block.range.start.line = block.range.stop.line ∧
        block.range.start.character ≤ block.range.stop.character)
  start_nonneg : 0 ≤ block.range.start.character
  start_le_length :
    block.range.start.character ≤
      Utf16.length (lines.getD block.range.start.line.toNat [])
  stop_nonneg : 0 ≤ block.range.stop.character
  stop_le_length :
    block.range.stop.character ≤
      Utf16.length (lines.getD block.range.stop.line.toNat [])

/-
  The comment says something, in one line without blanks at its
  ends, and its scope is that of a comment.
-/
structure Says (block : CommentBlock) : Prop where
  comment_ne : block.comment ≠ []
  lf_not_mem : Ascii.lf ∉ block.comment
  trimmed : block.comment.Trimmed
  scope :
    block.scope = utf8 "comment" ∨
      ∃ rest, block.scope = utf8 "comment." ++ rest

end CommentBlock

namespace CommentSpan

/-
  The span covers the token that was found.  If the token was
  found at the position, the span also covers the column of the
  position, and its range the place that this column stands for.
-/
structure Covers
    (lines : Array Bytes)
    (position : Position)
    (m : CommentMatch)
    (token : Token)
    (span : CommentSpan) : Prop where
  holds_start : span.Holds m.line token.start
  holds_stop : span.Holds m.line token.stop
  line_eq : m.nearness = .exact → (m.line : Int) = position.line
  holds_column :
    m.nearness = .exact →
      span.Holds m.line
        (Utf16.toByteColumn (lines.getD m.line []) position.character)
  range_holds :
    m.nearness = .exact →
      (span.toRange lines).Holds
        ⟨position.line,
          Utf16.ofByteColumn (lines.getD m.line [])
            (Utf16.toByteColumn (lines.getD m.line [])
              position.character)⟩

variable {lines : Array Bytes}
variable {tokens : Nat → List Token}
variable {position : Position}
variable {m : CommentMatch}
variable {token : Token}
variable {span : CommentSpan}

/- A span around the token that was found covers it. -/
theorem covers_of_around
    (hFound : CommentMatch.Located lines tokens position m token)
    (hWide : token.start < token.stop)
    (hAround : Around lines tokens m.line token span) :
    span.Covers lines position m token where
  holds_start :=
    holds_of_around hAround (Nat.le_refl _) (Nat.le_of_lt hWide)
  holds_stop :=
    holds_of_around hAround (Nat.le_of_lt hWide) (Nat.le_refl _)
  line_eq := hFound.line_eq
  holds_column := fun hExact =>
    holds_of_around hAround (hFound.start_le hExact)
      (hFound.le_stop hExact)
  range_holds := by
    intro hExact
    have hColumn :=
      holds_of_around hAround (hFound.start_le hExact)
        (hFound.le_stop hExact)
    rw [← hFound.line_eq hExact]
    exact holds_toRange lines hColumn

end CommentSpan

namespace CommentBlock

variable {lines : Array Bytes}
variable {tokens : Nat → List Token}
variable {line : Nat}
variable {token : Token}
variable {span : CommentSpan}
variable {block : CommentBlock}

/- A comment whose span is around a token lies inside the document. -/
theorem inside_of_around
    (hRange : block.range = span.toRange lines)
    (hWide : token.start < token.stop)
    (hAround : CommentSpan.Around lines tokens line token span) :
    block.Inside lines := by
  have hLineLe : span.startLine ≤ span.stopLine :=
    Nat.le_trans hAround.startLine_le hAround.le_stopLine
  constructor
  all_goals
    rw [hRange]
    unfold CommentSpan.toRange
    dsimp only
  case line_nonneg => exact Int.natCast_nonneg _
  case line_le => exact Int.ofNat_le.mpr hLineLe
  case line_lt => exact Int.ofNat_lt.mpr hAround.stopLine_lt
  case start_le =>
    rcases Nat.lt_or_eq_of_le hLineLe with hBefore | hSame
    · exact Or.inl (Int.ofNat_lt.mpr hBefore)
    · have hFirst := hAround.startLine_le
      have hLast := hAround.le_stopLine
      have hStart := hAround.start_le (by omega)
      have hStop := hAround.le_stop (by omega)
      refine Or.inr ⟨congrArg _ hSame, Int.ofNat_le.mpr ?_⟩
      rw [hSame]
      exact Utf16.ofByteColumn_mono _ (by omega)
  case start_nonneg => exact Int.natCast_nonneg _
  case start_le_length =>
    exact Int.ofNat_le.mpr (Utf16.ofByteColumn_le_length _ _)
  case stop_nonneg => exact Int.natCast_nonneg _
  case stop_le_length =>
    exact Int.ofNat_le.mpr (Utf16.ofByteColumn_le_length _ _)

/-
  If there are no more lines than some limit, and every line is
  shorter, then all numbers of the range are below the limit.
-/
theorem below_of_inside
    {limit : Int}
    (hInside : block.Inside lines)
    (hLines : (lines.size : Int) ≤ limit)
    (hLengths : ∀ line : Nat, ((lines.getD line []).length : Int) < limit) :
    block.range.Below limit := by
  have hLine := hInside.line_lt
  have hLe := hInside.line_le
  have hStart := hInside.start_le_length
  have hStop := hInside.stop_le_length
  have hStartLength :=
    Utf16.length_le (lines.getD block.range.start.line.toNat [])
  have hStopLength :=
    Utf16.length_le (lines.getD block.range.stop.line.toNat [])
  have hStartLimit := hLengths block.range.start.line.toNat
  have hStopLimit := hLengths block.range.stop.line.toNat
  constructor <;> omega

end CommentBlock

------------------------------------------------------------
-- What a Comment Says
------------------------------------------------------------

/- A scope under another one is that scope, or goes on with a dot. -/
theorem Scope.eq_or_exists_of_isUnder
    {scope general : Scope}
    (hUnder : scope.isUnder general = true) :
    scope = general ∨ ∃ rest, scope = general ++ Ascii.dot :: rest := by
  unfold Scope.isUnder at hUnder
  rw [Bool.and_eq_true, List.isPrefixOf_iff_prefix] at hUnder
  rcases hUnder with ⟨⟨after, rfl⟩, hAfter⟩
  rw [List.drop_left] at hAfter
  cases after with
  | nil => exact Or.inl (List.append_nil general)
  | cons b rest =>
      have hDot : b = Ascii.dot := by simpa using hAfter
      rw [hDot]
      exact Or.inr ⟨rest, rfl⟩

namespace CommentLookup

variable {lines : Array Bytes}
variable {tokens : Nat → List Token}
variable {settings : MergeSettings}
variable {position : Position}
variable {block : CommentBlock}

/- What there is to a comment that was found. -/
theorem exists_of_found
    (hFound :
      (compute lines settings position).eval tokens = .found block) :
    ∃ m span,
      (CommentMatch.locate lines position).eval tokens = some m ∧
        (CommentSpan.ofMatch lines m settings.policy?).eval tokens =
            span ∧
          (Extract.text? lines span m.scope).eval tokens =
              some block.comment ∧
            block.range = span.toRange lines ∧
              block.scope = m.scope := by
  unfold compute at hFound
  rw [TokenQuery.eval_bind] at hFound
  split at hFound
  · cases hFound
  · next m hMatch =>
      refine ⟨m, _, hMatch, rfl, ?_⟩
      rw [TokenQuery.eval_bind, TokenQuery.eval_bind,
        TokenQuery.eval_pure] at hFound
      unfold ExtractedText.ofSpan at hFound
      rw [TokenQuery.eval_bind, TokenQuery.eval_pure] at hFound
      cases hText :
          (Extract.text? lines
            ((CommentSpan.ofMatch lines m settings.policy?).eval tokens)
            m.scope).eval tokens with
      | none =>
          rw [hText] at hFound
          cases hFound
      | some text =>
          rw [hText, Option.map_some] at hFound
          unfold ofText at hFound
          dsimp only at hFound
          split at hFound
          · cases hFound
          · cases hFound
            exact ⟨rfl, rfl, rfl⟩

/- The comment of a token says something, if anything is left of it. -/
theorem says_of_text?
    {span : CommentSpan}
    {m : CommentMatch}
    {token : Token}
    (hLines : ∀ line : Nat, Ascii.lf ∉ lines.getD line [])
    (hText :
      (Extract.text? lines span m.scope).eval tokens =
        some block.comment)
    (hToken : token.commentScope? = some m.scope)
    (hScope : block.scope = m.scope) :
    block.Says := by
  rcases Extract.properties_of_text? hLines hText with
    ⟨hSome, hLine, hTrimmed⟩
  refine ⟨hSome, hLine, hTrimmed, ?_⟩
  have hUnder := (Token.properties_of_commentScope? hToken).2
  rw [← hScope] at hUnder
  rcases Scope.eq_or_exists_of_isUnder hUnder with hSame | ⟨rest, hMore⟩
  · exact Or.inl hSame
  · exact Or.inr ⟨rest, hMore⟩

end CommentLookup

------------------------------------------------------------
-- Looking Up Is Safe
------------------------------------------------------------

/-
  For every grammar, document, settings and position, and however
  much of the document is tokenized already, every line comes to
  an end, and a lookup reads no line and no token that does not
  exist.

  A comment that it finds was found by a token of the document.
  Its span covers the token, and the position if the token is
  there; its range lies inside the document, and stays below any
  limit that the document stays below; its text is one line with
  something to say.
-/
theorem TokenizedDocument.lookup_safe
    (grammar : Grammar)
    (document : Document)
    (maxLength n : Nat)
    (settings : MergeSettings)
    (position : Position) :
    let fresh := create grammar document maxLength
    let lookup :=
      (answer (CommentLookup.compute fresh.lines settings position)
        (fresh.extend n)).1
    fresh.Ends ∧
      (answer (CheckedLookup.compute fresh.lines settings position).run
          (fresh.extend n)).1 =
        some lookup ∧
      ∀ block,
        lookup = .found block →
          ∃ m token span,
            (CommentMatch.locate fresh.lines position).eval
                  fresh.tokensAt =
                some m ∧
              (fresh.tokensAt m.line)[m.tokenIndex]? = some token ∧
              (CommentSpan.ofMatch fresh.lines m settings.policy?).eval
                  fresh.tokensAt =
                span ∧
              block.range = span.toRange fresh.lines ∧
              span.Covers fresh.lines position m token ∧
              block.Inside fresh.lines ∧
              (∀ limit : Int,
                fresh.lines.size ≤ limit →
                  (∀ line : Nat,
                    (fresh.lines.getD line []).length < limit) →
                    block.range.Below limit) ∧
              block.Says := by
  intro fresh lookup
  have hFresh := fresh_create grammar document maxLength
  have hPartitioned := partitioned_create grammar document maxLength
  have hTokens := partitioned_tokensAt hFresh hPartitioned
  rcases
      answer_extend hFresh
        (CommentLookup.compute fresh.lines settings position) n with
    ⟨_, hAnswer⟩
  rcases
      answer_extend hFresh
        (CheckedLookup.compute fresh.lines settings position).run n with
    ⟨_, hChecked⟩
  have hLookup :
      lookup =
        (CommentLookup.compute fresh.lines settings position).eval
          fresh.tokensAt :=
    congrArg Prod.fst hAnswer
  refine ⟨ends_of_partitioned hPartitioned, ?_, ?_⟩
  · rw [hChecked, hLookup]
    exact CheckedLookup.eval_compute hTokens settings position
  · intro block hBlock
    rw [hLookup] at hBlock
    rcases CommentLookup.exists_of_found hBlock with
      ⟨m, span, hMatch, hSpan, hText, hRange, hScope⟩
    rcases CommentMatch.located_of_locate hTokens hMatch with
      ⟨token, hLocated⟩
    have hWide :=
      (hTokens m.line hLocated.line_lt).start_lt_stop token
        (List.mem_of_getElem? hLocated.getElem_eq)
    have hAround :=
      CommentSpan.around_ofMatch hTokens hLocated settings.policy?
    rw [hSpan] at hAround
    have hInside := CommentBlock.inside_of_around hRange hWide hAround
    exact
      ⟨m, token, span, hMatch, hLocated.getElem_eq, hSpan, hRange,
        CommentSpan.covers_of_around hLocated hWide hAround, hInside,
        fun _ hLines hLengths =>
          CommentBlock.below_of_inside hInside hLines hLengths,
        CommentLookup.says_of_text?
          (Document.lf_not_mem_lines document) hText hLocated.scope_eq
          hScope⟩

/- A grammar of notes, which go to the end of their line. -/
def Grammar.notes : Grammar :=
  { engine := .standard
    scopeName := utf8 "source.notes"
    rules :=
      #[{ name := []
          contentName := []
          body := .container
          patterns := [1]
          candidates := [1] },
        { name := utf8 "comment.line.number-sign"
          contentName := []
          body := .single (Pattern.compile? (utf8 "#.*$")) []
          patterns := []
          candidates := [] }] }

/- From a line that has no note, the one below it is found. -/
theorem TokenizedDocument.lookup_safe_note :
    let document : Document :=
      ⟨utf8 "file:///a", utf8 "notes", 1, utf8 "a\n\n\t# one \n\t# two"⟩
    let fresh := create Grammar.notes document 0
    ∃ block,
      (answer
            (CommentLookup.compute fresh.lines ⟨true, .strict⟩ ⟨0, -5⟩)
            (fresh.extend 1)).1 =
          .found block ∧
        block.comment = utf8 "one two" ∧
          block.Inside fresh.lines ∧ block.Says := by
  intro document fresh
  have hComputed :
      (extendWithin? 5 fresh.lines.size fresh).map
          (fun d =>
            (CommentLookup.compute fresh.lines ⟨true, .strict⟩
              ⟨0, -5⟩).eval d.tokensIn) =
        some
          (.found
            { range := ⟨⟨2, 1⟩, ⟨3, 6⟩⟩
              comment := utf8 "one two"
              isLineComment := true
              humanize := false
              scope := utf8 "comment.line.number-sign" }) := by
    decide +kernel
  rcases Option.map_eq_some_iff.mp hComputed with
    ⟨last, hExtend, hFound⟩
  rw [← answer_of_extendWithin? (fresh_create _ _ _) hExtend _ 1]
    at hFound
  rcases
      (lookup_safe Grammar.notes document 0 1 ⟨true, .strict⟩
        ⟨0, -5⟩).2.2 _ hFound with
    ⟨_, _, _, _, _, _, _, _, hInside, _, hSays⟩
  exact ⟨_, hFound, rfl, hInside, hSays⟩

end Marginalia

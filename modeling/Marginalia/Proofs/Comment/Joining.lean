import Marginalia.Proofs.Comment.Content
import Marginalia.Proofs.Comment.Merging

/-
  This file proves that merging lines and taking their texts out
  can change places: the text of a merged line comment is the texts
  of its lines, joined with one space.

  A merged comment holds more of its lines than the lines' own
  comments do: the white space around them.  It is told from the
  other bytes by one test and trimmed by another, and the tests
  differ on two controls, the vertical tab and the form feed.  So
  these must not stand there, and a document with a vertical tab
  has a comment whose text is not that of its lines.

  Key definitions include:
    * `Ascii.vt`, `Ascii.ff`
    * `CommentMatch.inLine`
    * `CommentSpan.HoldsLine`
    * `Extract.joined?`, `Extract.ClearOutside`
  The main statements are:
    * `Bytes.trim_append_blank`
    * `Extract.joinLines_eq_filterMap`
    * `Extract.trim_content_of_blank`
    * `CommentSpan.holdsLine_ofLine`
    * `TokenizedDocument.text_joined`
    * `TokenizedDocument.text_ne_joined`
-/

namespace Marginalia

------------------------------------------------------------
-- White Space and Blanks
------------------------------------------------------------

namespace Ascii

/- The vertical tab. -/
abbrev vt : UInt8 := 11

/- The form feed. -/
abbrev ff : UInt8 := 12

/- Other white space than these two and the line feed is blank. -/
theorem isBlank_of_isSpace :
    ∀ b : UInt8,
      isSpace b = true → b ≠ lf → b ≠ vt → b ≠ ff → isBlank b = true :=
  forall_of_forall_lt (by decide +kernel)

end Ascii

namespace Bytes

/- Blanks in front of a text are trimmed. -/
theorem trim_blank_append
    {before : Bytes}
    (hBefore : ∀ b ∈ before, Ascii.isBlank b = true)
    (s : Bytes) :
    trim (before ++ s) = trim s := by
  unfold trim
  rw [List.dropWhile_append_of_pos hBefore]

/- So are blanks behind it. -/
theorem trim_append_blank
    {after : Bytes}
    (hAfter : ∀ b ∈ after, Ascii.isBlank b = true)
    (s : Bytes) :
    trim (s ++ after) = trim s := by
  have hNone : after.dropWhile Ascii.isBlank = [] :=
    List.dropWhile_eq_nil_iff.mpr hAfter
  have hReversed : ∀ b ∈ after.reverse, Ascii.isBlank b = true :=
    fun b hByte => hAfter b (List.mem_reverse.mp hByte)
  unfold trim
  rw [List.dropWhile_append]
  split
  · next hEmpty =>
      rw [hNone, List.isEmpty_iff.mp hEmpty]
  · unfold trimEnd
    rw [List.reverse_append, List.dropWhile_append_of_pos hReversed]

end Bytes

------------------------------------------------------------
-- Joined Lines
------------------------------------------------------------

namespace Extract

/- What is left of a line, if it is not blank. -/
def trimmed? (line : Bytes) : Option Bytes :=
  if line.trim.isEmpty then none else some line.trim

/- Lines are joined by what is left of each. -/
theorem joinLines_eq_filterMap
    (lines : List Bytes) :
    joinLines lines = Bytes.join [Ascii.space] (lines.filterMap trimmed?) := by
  unfold joinLines
  congr 1
  induction lines with
  | nil => rfl
  | cons line lines ih =>
      rw [List.map_cons, List.filter_cons, List.filterMap_cons, ih]
      unfold trimmed?
      cases line.trim.isEmpty <;> rfl

/- Texts joined with one space, if there is any. -/
def joined? (texts : List Bytes) : Option Bytes :=
  if texts.isEmpty then none
  else some (Bytes.join [Ascii.space] texts)

/- No text comes of no texts only. -/
theorem joined?_eq_none_iff
    {texts : List Bytes} :
    joined? texts = none ↔ texts = [] := by
  cases texts <;> simp [joined?]

/- One text or none is joined to itself. -/
theorem joined?_toList
    (text? : Option Bytes) :
    joined? text?.toList = text? := by
  cases text? <;> rfl

/- Joined lines are empty only if nothing is left of each. -/
theorem isEmpty_joinLines
    (lines : List Bytes) :
    (joinLines lines).isEmpty = (lines.filterMap trimmed?).isEmpty := by
  have hPieces :
      ∀ piece ∈ lines.filterMap trimmed?,
        piece.Trimmed ∧ piece ≠ [] := by
    intro piece hPiece
    rcases List.mem_filterMap.mp hPiece with ⟨line, _, hLeft⟩
    unfold trimmed? at hLeft
    split at hLeft
    · cases hLeft
    · next hSome =>
        cases hLeft
        exact
          ⟨Bytes.trimmed_trim line,
            fun hNil => hSome (List.isEmpty_iff.mpr hNil)⟩
  have hJoined := (@Bytes.trimmed_join [Ascii.space] _ hPieces).2
  rw [Bool.eq_iff_iff, List.isEmpty_iff, List.isEmpty_iff,
    joinLines_eq_filterMap]
  constructor
  · intro hEmpty
    by_contra hSome
    exact hJoined hSome hEmpty
  · intro hNone
    rw [hNone]
    rfl

variable {lines : Array Bytes}
variable {tokens : Nat → List Token}
variable {span : CommentSpan}
variable {scope : Scope}

/- The text of a line comment with marks is the contents of its lines. -/
theorem eval_text?_of_meetsMark
    (hTokens : Tokens.Partitioned lines tokens)
    (hScope : scope.isLineComment = true)
    (hMeets : span.MeetsMark lines tokens) :
    (text? lines span scope).eval tokens =
      joined?
        (((allParts lines tokens span).map LinePart.content).filterMap
          trimmed?) := by
  have hStrip :
      strip scope (allParts lines tokens span) =
        (allParts lines tokens span).map LinePart.content := by
    unfold strip
    dsimp only
    rw [if_pos ((any_marked_iff hTokens).mpr hMeets), if_pos hScope]
  rw [eval_text?_eq, hStrip, isEmpty_joinLines, joinLines_eq_filterMap]
  rfl

/- What a span in one line holds of it. -/
theorem allParts_of_line
    {line : Nat}
    (hLine : line < lines.size)
    (hStart : span.startLine = line)
    (hStop : span.stopLine = line) :
    allParts lines tokens span =
      [part span line (lines.getD line []) (tokens line)] := by
  have hOne : lineCount lines span = 1 := by
    unfold lineCount
    omega
  unfold allParts
  rw [hOne, hStart, eval_parts_eq_map]
  rfl

/- Where a line is blank, so it is with spaces for its marks. -/
theorem isBlank_of_mem_slice_shown
    {text : Bytes}
    {start stop : Nat}
    (hBlank : ∀ b ∈ text.slice start stop, Ascii.isBlank b = true)
    (ts : List Token) :
    ∀ b ∈ (shown text ts).slice start stop, Ascii.isBlank b = true := by
  intro b hByte
  rw [slice_shown] at hByte
  rcases List.mem_map.mp hByte with ⟨item, hItem, rfl⟩
  split
  · rfl
  · apply hBlank
    have hSlice :=
      Bytes.map_filter_zipIdx_between start stop 0 text
    rw [Nat.sub_zero, Nat.sub_zero] at hSlice
    rw [← hSlice]
    exact List.mem_map_of_mem hItem

/-
  The content between columns that are wider apart is the same, but
  for blanks, if only blanks stand between the two on each side.
-/
theorem trim_content_of_blank
    {text : Bytes}
    {ts : List Token}
    {start stop wideStart wideStop : Nat}
    (hPartition : Tokens.Partition text.length ts)
    (hStart : wideStart ≤ start)
    (hOrder : start ≤ stop)
    (hStop : stop ≤ wideStop)
    (hBefore : ∀ b ∈ text.slice wideStart start, Ascii.isBlank b = true)
    (hAfter : ∀ b ∈ text.slice stop wideStop, Ascii.isBlank b = true) :
    Bytes.trim (ts.flatMap (tokenContent text wideStart wideStop)) =
      Bytes.trim (ts.flatMap (tokenContent text start stop)) := by
  rw [content_eq_slice hPartition, content_eq_slice hPartition,
    Bytes.slice_append_slice hStart (Nat.le_trans hOrder hStop),
    Bytes.trim_blank_append (isBlank_of_mem_slice_shown hBefore ts),
    Bytes.slice_append_slice hOrder hStop,
    Bytes.trim_append_blank (isBlank_of_mem_slice_shown hAfter ts)]

end Extract

------------------------------------------------------------
-- The Lines of a Merged Comment
------------------------------------------------------------

/-
  The token that a line of a merged comment is found by: in the
  line of the match its own, in another one the first that is not
  white.
-/
def CommentMatch.inLine
    (lines : Array Bytes)
    (tokens : Nat → List Token)
    (m : CommentMatch)
    (line : Nat) : CommentMatch :=
  if line = m.line then m
  else
    ⟨line, firstContent (lines.getD line []) (tokens line), m.scope,
      m.nearness⟩

namespace CommentSpan

variable {lines : Array Bytes}
variable {tokens : Nat → List Token}

/-
  A span holds the comment of a line, and in this line nothing else
  than white space around it.
-/
structure HoldsLine
    (lines : Array Bytes)
    (span : CommentSpan)
    (line : Nat)
    (own : CommentSpan) : Prop where
  startLine_eq : own.startLine = line
  stopLine_eq : own.stopLine = line
  start_le :
    (Extract.columns span line (lines.getD line [])).1 ≤ own.startColumn
  order : own.startColumn ≤ own.stopColumn
  le_stop :
    own.stopColumn ≤ (Extract.columns span line (lines.getD line [])).2
  white :
    ∀ {column : Nat} {b : UInt8},
      span.contains line column = true →
        own.contains line column = false →
          (lines.getD line [])[column]? = some b →
            Ascii.isSpace b = true

/- What a span in one line holds of it. -/
theorem contains_of_line
    {span : CommentSpan}
    {line column : Nat}
    (hStart : span.startLine = line)
    (hStop : span.stopLine = line) :
    span.contains line column =
      (decide (span.startColumn ≤ column) &&
        decide (column < span.stopColumn)) := by
  unfold contains
  simp [hStart, hStop]

/- The columns of such a span, if they are inside the line. -/
theorem columns_of_line
    {span : CommentSpan}
    {line : Nat}
    {text : Bytes}
    (hStart : span.startLine = line)
    (hStop : span.stopLine = line)
    (hOrder : span.startColumn ≤ span.stopColumn)
    (hInside : span.stopColumn ≤ text.length) :
    Extract.columns span line text =
      (span.startColumn, span.stopColumn) := by
  unfold Extract.columns
  rw [if_pos hStart.symm, if_pos hStop.symm,
    Nat.min_eq_left (Nat.le_trans hOrder hInside),
    Nat.min_eq_left hInside]

/- The comment of a line without merging. -/
theorem eval_ofLine_none
    (lines : Array Bytes)
    (tokens : Nat → List Token)
    (m : CommentMatch) :
    (ofLine lines m none).eval tokens =
      ⟨m.line,
        (LineRun.around (tokens m.line) m.tokenIndex m.scope).startColumn
          (tokens m.line),
        m.line,
        (LineRun.around (tokens m.line) m.tokenIndex m.scope).stopColumn
          (tokens m.line)⟩ :=
  eval_ofLine_of_not_own rfl (fun hSome => by cases hSome)

/-
  A line comment is the run of its token, or reaches over the group
  of lines of its line.
-/
theorem eval_ofLine_or_coversGroup
    {m : CommentMatch}
    {token : Token}
    (hLine : m.line < lines.size)
    (hToken : (tokens m.line)[m.tokenIndex]? = some token)
    (hCarries : token.carries m.scope = true)
    (policy? : Option Indentation) :
    (ofLine lines m policy?).eval tokens =
        (ofLine lines m none).eval tokens ∨
      ∃ policy run,
        CoversGroup lines tokens m.scope policy m.line
            ((ofLine lines m policy?).eval tokens) ∧
          LineRun.IsOnly (lines.getD m.line []) (tokens m.line) m.scope
              run ∧
            LineRun.Within (tokens m.line) m.tokenIndex run := by
  cases policy? with
  | none => exact Or.inl rfl
  | some policy =>
      by_cases hOnly :
          ∃ run,
            LineRun.IsOnly (lines.getD m.line []) (tokens m.line)
                m.scope run ∧
              LineRun.Within (tokens m.line) m.tokenIndex run
      · rcases hOnly with ⟨run, hRun, hIn⟩
        exact
          Or.inr
            ⟨policy, run, coversGroup_ofLine hLine hRun hIn policy, hRun,
              hIn⟩
      · left
        rcases
            exists_run_of_not_only hToken hCarries
              (fun run hRun hIn => hOnly ⟨run, hRun, hIn⟩) policy with
          ⟨run, hMaximal, hIn, hEnds⟩
        have hAlone := hEnds m.tokenIndex m.nearness hIn
        rw [hAlone, eval_ofLine_none,
          LineRun.around_eq_of_within hMaximal hIn]

/- The columns of a run are in order and inside the line. -/
theorem le_of_within
    {length index : Nat}
    {ts : List Token}
    {run : LineRun}
    (hPartition : Tokens.Partition length ts)
    (hIn : LineRun.Within ts index run) :
    run.startColumn ts ≤ run.stopColumn ts ∧
      run.stopColumn ts ≤ length := by
  rcases LineRun.exists_startColumn hIn with ⟨first, hFirst, hStart⟩
  rcases LineRun.exists_stopColumn hIn with ⟨last, hLast, hStop⟩
  have hMember := List.mem_of_getElem? hLast
  have hWide := hPartition.start_lt_stop last hMember
  have hInside := Tokens.stop_le_of_mem hPartition hMember
  have hOrder :=
    (Tokens.le_of_index_le hPartition hFirst hLast
      (Nat.le_trans hIn.first_le hIn.le_last)).1
  omega

/- Without merging, the line of a comment holds nothing of the others. -/
theorem holdsLine_self
    {m : CommentMatch}
    {token : Token}
    (hTokens : Tokens.Partitioned lines tokens)
    (hLine : m.line < lines.size)
    (hToken : (tokens m.line)[m.tokenIndex]? = some token) :
    HoldsLine lines ((ofLine lines m none).eval tokens) m.line
      ((ofLine lines m none).eval tokens) := by
  have hIn :=
    LineRun.within_around (List.getElem?_eq_some_iff.mp hToken).1 m.scope
  have hColumns := le_of_within (hTokens m.line hLine) hIn
  rw [eval_ofLine_none]
  constructor
  case startLine_eq => rfl
  case stopLine_eq => rfl
  case start_le =>
    unfold Extract.columns
    dsimp only
    rw [if_pos rfl]
    exact Nat.min_le_left _ _
  case order => exact hColumns.1
  case le_stop =>
    unfold Extract.columns
    dsimp only
    rw [if_pos rfl]
    exact Nat.le_min.mpr ⟨Nat.le_refl _, hColumns.2⟩
  case white =>
    intro column b hHolds hNot
    rw [hHolds] at hNot
    cases hNot

/-
  In each line of a group, the merged comment holds the run of the
  line, with white space around it.
-/
theorem holdsLine_of_coversGroup
    {scope : Scope}
    {policy : Indentation}
    {line l : Nat}
    {span : CommentSpan}
    {run : LineRun}
    (hTokens : Tokens.Partitioned lines tokens)
    (hCovers : CoversGroup lines tokens scope policy line span)
    (hTo : l ≤ span.stopLine)
    (hOnly :
      LineRun.IsOnly (lines.getD l []) (tokens l) scope run) :
    HoldsLine lines span l
      ⟨l, run.startColumn (tokens l), l, run.stopColumn (tokens l)⟩ := by
  have hLine : l < lines.size := by
    have hBottom := hCovers.group.bottom_lt
    omega
  rcases hOnly.content with ⟨index, _, hIn⟩
  have hColumns := le_of_within (hTokens l hLine) hIn
  have hWhite :=
    LineRun.white_of_onlyIn (hTokens l hLine)
      (LineRun.eval_onlyIn_eq_some_iff.mpr hOnly)
  have hStart :
      (Extract.columns span l (lines.getD l [])).1 ≤
        run.startColumn (tokens l) := by
    unfold Extract.columns
    dsimp only
    by_cases hFirst : l = span.startLine
    · rcases hCovers.start with ⟨first, hOther, hStart⟩
      rw [← hFirst] at hOther hStart
      rw [if_pos hFirst, hStart, hOther.unique hOnly]
      exact Nat.min_le_left _ _
    · rw [if_neg hFirst]
      exact Nat.zero_le _
  have hStop :
      run.stopColumn (tokens l) ≤
        (Extract.columns span l (lines.getD l [])).2 := by
    unfold Extract.columns
    dsimp only
    by_cases hLast : l = span.stopLine
    · rcases hCovers.stop with ⟨last, hOther, hStop⟩
      rw [← hLast] at hOther hStop
      rw [if_pos hLast, hStop, hOther.unique hOnly]
      exact Nat.le_min.mpr ⟨Nat.le_refl _, hColumns.2⟩
    · rw [if_neg hLast]
      exact hColumns.2
  refine ⟨rfl, rfl, hStart, hColumns.1, hStop, ?_⟩
  intro column b _ hNot hItem
  -- A byte that the run does not hold stands before or behind it.
  by_cases hBefore : column < run.startColumn (tokens l)
  · exact hWhite.1 column b hBefore hItem
  · refine hWhite.2 column b ?_ hItem
    by_contra hBehind
    rw [contains_of_line rfl rfl,
      decide_eq_true (Nat.le_of_not_lt hBefore),
      decide_eq_true (Nat.lt_of_not_le hBehind)] at hNot
    cases hNot

/- A line comment goes over lines of the document. -/
theorem lines_ofLine
    {m : CommentMatch}
    {token : Token}
    (hLine : m.line < lines.size)
    (hToken : (tokens m.line)[m.tokenIndex]? = some token)
    (hCarries : token.carries m.scope = true)
    (policy? : Option Indentation) :
    ((ofLine lines m policy?).eval tokens).startLine ≤
        ((ofLine lines m policy?).eval tokens).stopLine ∧
      ((ofLine lines m policy?).eval tokens).stopLine < lines.size := by
  rcases
      eval_ofLine_or_coversGroup hLine hToken hCarries policy? with
    hAlone | ⟨_, _, hCovers, _⟩
  · rw [hAlone, eval_ofLine_none]
    exact ⟨Nat.le_refl _, hLine⟩
  · exact
      ⟨Nat.le_trans hCovers.group.top_le hCovers.group.le_bottom,
        hCovers.group.bottom_lt⟩

/-
  In each of its lines, a line comment holds the comment of this
  line, with white space around it.
-/
theorem holdsLine_ofLine
    {m : CommentMatch}
    {token : Token}
    {line : Nat}
    (hTokens : Tokens.Partitioned lines tokens)
    (hLine : m.line < lines.size)
    (hToken : (tokens m.line)[m.tokenIndex]? = some token)
    (hCarries : token.carries m.scope = true)
    (policy? : Option Indentation)
    (hFrom : ((ofLine lines m policy?).eval tokens).startLine ≤ line)
    (hTo : line ≤ ((ofLine lines m policy?).eval tokens).stopLine) :
    HoldsLine lines ((ofLine lines m policy?).eval tokens) line
      ((ofLine lines (m.inLine lines tokens line) none).eval tokens) := by
  rcases
      eval_ofLine_or_coversGroup hLine hToken hCarries policy? with
    hAlone | ⟨policy, own, hCovers, hOwn, hIn⟩
  · rw [hAlone] at hFrom hTo ⊢
    have hSame : line = m.line := by
      rw [eval_ofLine_none] at hFrom hTo
      exact Nat.le_antisymm hTo hFrom
    rw [CommentMatch.inLine, if_pos hSame, hSame]
    exact holdsLine_self hTokens hLine hToken
  · rcases (hCovers.group.joins hFrom hTo).only with ⟨run, hOnly⟩
    have hRun :
        (ofLine lines (m.inLine lines tokens line) none).eval tokens =
          ⟨line, run.startColumn (tokens line), line,
            run.stopColumn (tokens line)⟩ := by
      unfold CommentMatch.inLine
      split
      · next hSame =>
          subst hSame
          rw [eval_ofLine_none, hOnly.unique hOwn,
            LineRun.around_eq_of_within hOwn.maximal hIn]
      · rcases hOnly.content with ⟨index, hContent, hWithin⟩
        rw [← LineRun.firstContent_eq_of_isContent hContent] at hWithin
        rw [eval_ofLine_none]
        dsimp only
        rw [LineRun.around_eq_of_within hOnly.maximal hWithin]
    rw [hRun]
    exact holdsLine_of_coversGroup hTokens hCovers hTo hOnly

end CommentSpan

------------------------------------------------------------
-- The Text of a Merged Comment
------------------------------------------------------------

namespace Extract

variable {lines : Array Bytes}
variable {tokens : Nat → List Token}
variable {span own : CommentSpan}
variable {scope : Scope}
variable {line : Nat}

/-
  No vertical tab and no form feed stands in the span outside the
  comments of its lines.
-/
def ClearOutside
    (lines : Array Bytes)
    (span : CommentSpan)
    (own : Nat → CommentSpan) : Prop :=
  ∀ (line column : Nat) (b : UInt8),
    span.contains line column = true →
      (own line).contains line column = false →
        (lines.getD line [])[column]? = some b →
          b ≠ Ascii.vt ∧ b ≠ Ascii.ff

/- This is so in every document that has no such byte at all. -/
theorem clearOutside_of_forall
    {lines : Array Bytes}
    (hNone :
      ∀ text ∈ lines, ∀ b ∈ text, b ≠ Ascii.vt ∧ b ≠ Ascii.ff)
    (span : CommentSpan)
    (own : Nat → CommentSpan) :
    ClearOutside lines span own := by
  intro line column b _ _ hItem
  rw [Array.getD_eq_getD_getElem?] at hItem
  cases hLine : lines[line]? with
  | none =>
      rw [hLine] at hItem
      cases hItem
  | some text =>
      rw [hLine] at hItem
      exact
        hNone text (Array.mem_of_getElem? hLine) b
          (List.mem_of_getElem? hItem)

/-
  What a span holds of a line is what the comment of the line holds
  of it, but for blanks.
-/
theorem trim_content_of_holdsLine
    {owns : Nat → CommentSpan}
    (hTokens : Tokens.Partitioned lines tokens)
    (hLf : Ascii.lf ∉ lines.getD line [])
    (hLine : line < lines.size)
    (hFrom : span.startLine ≤ line)
    (hTo : line ≤ span.stopLine)
    (hHolds : CommentSpan.HoldsLine lines span line (owns line))
    (hClear : ClearOutside lines span owns) :
    Bytes.trim
        (part span line (lines.getD line []) (tokens line)).content =
      Bytes.trim
        (part (owns line) line (lines.getD line [])
          (tokens line)).content := by
  have hInside := snd_columns_le span line (lines.getD line [])
  have hStart := hHolds.start_le
  have hOrder := hHolds.order
  have hStop := hHolds.le_stop
  -- The bytes of the span next to the comment are white.
  have hBlank :
      ∀ {column : Nat} {b : UInt8},
        (columns span line (lines.getD line [])).1 ≤ column →
          column < (columns span line (lines.getD line [])).2 →
            (column < (owns line).startColumn ∨
                (owns line).stopColumn ≤ column) →
              (lines.getD line [])[column]? = some b →
                Ascii.isBlank b = true := by
    intro column b hAfter hBefore hNext hItem
    have hSpan : span.contains line column = true := by
      rw [CommentSpan.contains_eq_columns hFrom hTo
          (Nat.lt_of_lt_of_le hBefore hInside),
        decide_eq_true hAfter, decide_eq_true hBefore]
      rfl
    have hNot : (owns line).contains line column = false := by
      rw [CommentSpan.contains_of_line hHolds.startLine_eq
        hHolds.stopLine_eq, Bool.and_eq_false_iff,
        decide_eq_false_iff_not, decide_eq_false_iff_not]
      omega
    have hOther : b ≠ Ascii.lf :=
      fun hSame => hLf (hSame ▸ List.mem_of_getElem? hItem)
    have hControls := hClear line column b hSpan hNot hItem
    exact
      Ascii.isBlank_of_isSpace b (hHolds.white hSpan hNot hItem) hOther
        hControls.1 hControls.2
  unfold part
  dsimp only
  rw [CommentSpan.columns_of_line hHolds.startLine_eq
    hHolds.stopLine_eq hOrder (Nat.le_trans hStop hInside)]
  refine
    trim_content_of_blank (hTokens line hLine) hStart hOrder hStop ?_ ?_
  · intro b hByte
    rcases Bytes.mem_slice_iff.mp hByte with
      ⟨column, hAfter, hBefore, hItem⟩
    exact hBlank hAfter (by omega) (Or.inl hBefore) hItem
  · intro b hByte
    rcases Bytes.mem_slice_iff.mp hByte with
      ⟨column, hAfter, hBefore, hItem⟩
    exact hBlank (by omega) hBefore (Or.inr hAfter) hItem

/- The comment of a line with a mark has the text of its content. -/
theorem eval_text?_of_line
    (hTokens : Tokens.Partitioned lines tokens)
    (hScope : scope.isLineComment = true)
    (hLine : line < lines.size)
    (hStart : own.startLine = line)
    (hStop : own.stopLine = line)
    (hMeets : own.MeetsMark lines tokens) :
    (text? lines own scope).eval tokens =
      trimmed?
        (part own line (lines.getD line []) (tokens line)).content := by
  rw [eval_text?_of_meetsMark hTokens hScope hMeets,
    allParts_of_line hLine hStart hStop, List.map_singleton]
  exact joined?_toList _

/- A span that holds a comment with a mark meets this mark. -/
theorem meetsMark_of_holdsLine
    (hLine : line < lines.size)
    (hFrom : span.startLine ≤ line)
    (hTo : line ≤ span.stopLine)
    (hHolds : CommentSpan.HoldsLine lines span line own)
    (hMeets : own.MeetsMark lines tokens) :
    span.MeetsMark lines tokens := by
  rcases hMeets with ⟨l, _, column, hOwn, hMark⟩
  have hSame : l = line := by
    by_contra hOther
    have hStart := hHolds.startLine_eq
    have hStop := hHolds.stopLine_eq
    rw [CommentSpan.contains_eq_false (by omega)] at hOwn
    cases hOwn
  subst hSame
  have hInside := snd_columns_le span l (lines.getD l [])
  have hStart := hHolds.start_le
  have hStop := hHolds.le_stop
  rw [CommentSpan.contains_of_line hHolds.startLine_eq
    hHolds.stopLine_eq, Bool.and_eq_true, decide_eq_true_eq,
    decide_eq_true_eq] at hOwn
  refine ⟨l, hLine, column, ?_, hMark⟩
  rw [CommentSpan.contains_eq_columns hFrom hTo
      (Nat.lt_of_lt_of_le hOwn.2 (Nat.le_trans hStop hInside)),
    decide_eq_true (Nat.le_trans hStart hOwn.1),
    decide_eq_true (Nat.lt_of_lt_of_le hOwn.2 hStop)]
  rfl

/-
  A span that holds a comment with a mark in each of its lines has
  the texts of these comments.
-/
theorem eval_text?_of_holdsLine
    {owns : Nat → CommentSpan}
    (hTokens : Tokens.Partitioned lines tokens)
    (hLf : ∀ line : Nat, Ascii.lf ∉ lines.getD line [])
    (hScope : scope.isLineComment = true)
    (hOrder : span.startLine ≤ span.stopLine)
    (hStop : span.stopLine < lines.size)
    (hHolds :
      ∀ line,
        span.startLine ≤ line →
          line ≤ span.stopLine →
            CommentSpan.HoldsLine lines span line (owns line))
    (hMeets :
      ∀ line,
        span.startLine ≤ line →
          line ≤ span.stopLine → (owns line).MeetsMark lines tokens)
    (hClear : ClearOutside lines span owns) :
    (text? lines span scope).eval tokens =
      joined?
        ((List.range' span.startLine
              (span.stopLine + 1 - span.startLine)).filterMap
          (fun line => (text? lines (owns line) scope).eval tokens)) := by
  have hCount :
      lineCount lines span = span.stopLine + 1 - span.startLine := by
    unfold lineCount
    omega
  have hMark :=
    meetsMark_of_holdsLine (Nat.lt_of_le_of_lt hOrder hStop)
      (Nat.le_refl _) hOrder (hHolds _ (Nat.le_refl _) hOrder)
      (hMeets _ (Nat.le_refl _) hOrder)
  rw [eval_text?_of_meetsMark hTokens hScope hMark]
  unfold allParts
  rw [eval_parts_eq_map, List.map_map, List.filterMap_map, hCount]
  refine congrArg _ (List.filterMap_congr ?_)
  intro line hMember
  rw [List.mem_range'_1] at hMember
  have hFrom := hMember.1
  have hTo : line ≤ span.stopLine := by omega
  have hOwn := hHolds line hFrom hTo
  have hLine := Nat.lt_of_le_of_lt hTo hStop
  rw [eval_text?_of_line hTokens hScope hLine hOwn.startLine_eq
    hOwn.stopLine_eq (hMeets line hFrom hTo)]
  -- What is left of a line only depends on the line without blanks.
  exact
    congrArg (fun left : Bytes => if left.isEmpty then none else some left)
      (trim_content_of_holdsLine hTokens (hLf line) hLine hFrom hTo hOwn
        hClear)

end Extract

------------------------------------------------------------
-- Tokenized Documents
------------------------------------------------------------

/-
  For every grammar and document, however much of it is tokenized
  before each question, for every token with the scope of a line
  comment and every way to merge:

  If the comment of each line of the merged comment has a mark, and
  no vertical tab or form feed stands in the merged comment next to
  them, then its text is the texts of these comments, in order and
  joined with one space, without those that have none.  So there is
  no text just if none of them has one.
-/
theorem TokenizedDocument.text_joined
    {grammar : Grammar}
    {document : Document}
    {maxLength : Nat}
    {m : CommentMatch}
    {token : Token}
    (hLine : m.line < (create grammar document maxLength).lines.size)
    (hToken :
      ((create grammar document maxLength).tokensAt
          m.line)[m.tokenIndex]? =
        some token)
    (hCarries : token.carries m.scope = true)
    (hKind : m.scope.isLineComment = true)
    (policy? : Option Indentation)
    (n : Nat) :
    let fresh := create grammar document maxLength
    let lines := fresh.lines
    let tokens := fresh.tokensAt
    let merged :=
      (answer (CommentSpan.ofMatch lines m policy?) (fresh.extend n)).1
    let own := fun line =>
      (answer (CommentSpan.ofMatch lines (m.inLine lines tokens line) none)
        (fresh.extend n)).1
    let text? := fun span =>
      (answer (Extract.text? lines span m.scope) (fresh.extend n)).1
    (∀ line,
        merged.startLine ≤ line →
          line ≤ merged.stopLine → (own line).MeetsMark lines tokens) →
      Extract.ClearOutside lines merged own →
        text? merged =
            Extract.joined?
              ((List.range' merged.startLine
                    (merged.stopLine + 1 - merged.startLine)).filterMap
                (fun line => text? (own line))) ∧
          (text? merged = none ↔
            ∀ line,
              merged.startLine ≤ line →
                line ≤ merged.stopLine → text? (own line) = none) := by
  intro fresh lines tokens merged own text? hMeets hClear
  have hFresh := fresh_create grammar document maxLength
  have hTokens : Tokens.Partitioned lines tokens :=
    partitioned_tokensAt hFresh
      (partitioned_create grammar document maxLength)
  have hAnswer :
      ∀ {α : Type} (q : TokenQuery α),
        (answer q (fresh.extend n)).1 = q.eval tokens :=
    fun q => fst_answer_extend hFresh q n
  have hMerged :
      merged = (CommentSpan.ofLine lines m policy?).eval tokens := by
    refine (hAnswer _).trans ?_
    rw [CommentSpan.ofMatch, if_pos hKind]
  have hOwn :
      ∀ line,
        own line =
          (CommentSpan.ofLine lines (m.inLine lines tokens line)
            none).eval tokens := by
    intro line
    refine (hAnswer _).trans ?_
    have hScope : (m.inLine lines tokens line).scope = m.scope := by
      unfold CommentMatch.inLine
      split <;> rfl
    rw [CommentSpan.ofMatch, if_pos (by rw [hScope, hKind])]
  have hText :
      ∀ span,
        text? span = (Extract.text? lines span m.scope).eval tokens :=
    fun span => hAnswer _
  rcases CommentSpan.lines_ofLine hLine hToken hCarries policy? with
    ⟨hOrder, hStop⟩
  have hHolds :
      ∀ line,
        merged.startLine ≤ line →
          line ≤ merged.stopLine →
            CommentSpan.HoldsLine lines merged line (own line) := by
    intro line hFrom hTo
    rw [hMerged] at hFrom hTo ⊢
    rw [hOwn]
    exact
      CommentSpan.holdsLine_ofLine hTokens hLine hToken hCarries policy?
        hFrom hTo
  rw [← hMerged] at hOrder hStop
  have hJoined :
      text? merged =
        Extract.joined?
          ((List.range' merged.startLine
                (merged.stopLine + 1 - merged.startLine)).filterMap
            (fun line => text? (own line))) := by
    simp only [hText]
    exact
      Extract.eval_text?_of_holdsLine hTokens
        (Document.lf_not_mem_lines document) hKind hOrder hStop hHolds
        hMeets hClear
  refine ⟨hJoined, ?_⟩
  rw [hJoined, Extract.joined?_eq_none_iff, List.filterMap_eq_nil_iff]
  constructor
  · intro hNone line hFrom hTo
    exact hNone line (List.mem_range'_1.mpr ⟨hFrom, by omega⟩)
  · intro hNone line hMember
    rw [List.mem_range'_1] at hMember
    exact hNone line hMember.1 (by omega)

/- Notes whose hash is told as their mark. -/
def Grammar.markedNotes : Grammar :=
  { engine := .standard
    scopeName := utf8 "source.notes"
    rules :=
      #[{ name := []
          contentName := []
          body := .container
          patterns := [1]
          candidates := [1] },
        { name := utf8 "comment.line.number-sign"
          contentName := []
          body :=
            .single (Pattern.compile? (utf8 "(#).*$"))
              [(1, utf8 "punctuation.definition.comment")]
          patterns := []
          candidates := [] }] }

/-
  Three notes, of which the second one is empty and indented, found
  by the last one.
-/
theorem TokenizedDocument.text_joined_notes :
    let document : Document :=
      ⟨utf8 "file:///a", utf8 "notes", 1, utf8 "# a \n\t#\n #c"⟩
    let fresh := create Grammar.markedNotes document 0
    let m : CommentMatch :=
      ⟨2, 1, utf8 "comment.line.number-sign", .exact⟩
    let merged :=
      (answer (CommentSpan.ofMatch fresh.lines m (some .ignore))
        (fresh.extend 1)).1
    merged = ⟨0, 0, 2, 3⟩ ∧
      (answer (Extract.text? fresh.lines merged m.scope)
          (fresh.extend 1)).1 =
        Extract.joined? [utf8 "a", utf8 "c"] := by
  intro document fresh m merged
  have hComputed :
      (extendWithin? 9 fresh.lines.size fresh).map
          (fun d =>
            let own := fun line =>
              (CommentSpan.ofMatch fresh.lines
                (m.inLine fresh.lines d.tokensIn line) none).eval
                d.tokensIn
            ((CommentSpan.ofMatch fresh.lines m (some .ignore)).eval
                d.tokensIn,
              (d.tokensIn 2)[1]?,
              (List.range 3).all (fun line =>
                (Extract.allParts fresh.lines d.tokensIn
                  (own line)).any LinePart.marked),
              [0, 1, 2].filterMap (fun line =>
                (Extract.text? fresh.lines (own line) m.scope).eval
                  d.tokensIn))) =
        some
          (⟨0, 0, 2, 3⟩,
            some
              ⟨1, 2,
                [utf8 "source.notes", m.scope,
                  utf8 "punctuation.definition.comment"]⟩,
            true, [utf8 "a", utf8 "c"]) := by
    decide +kernel
  rcases Option.map_eq_some_iff.mp hComputed with
    ⟨final, hExtend, hAll⟩
  have hFresh := fresh_create Grammar.markedNotes document 0
  have hTokens : fresh.tokensAt = final.tokensIn :=
    tokensAt_of_extendWithin? hFresh hExtend
  simp only [← hTokens, Prod.mk.injEq, List.all_eq_true] at hAll
  rcases hAll with ⟨hValue, hToken, hMarked, hTexts⟩
  have hAnswer :
      ∀ {α : Type} (q : TokenQuery α),
        (answer q (fresh.extend 1)).1 = q.eval fresh.tokensAt := by
    intro α q
    rw [answer_of_extendWithin? hFresh hExtend, hTokens]
  have hMerged : merged = ⟨0, 0, 2, 3⟩ := (hAnswer _).trans hValue
  refine ⟨hMerged, ?_⟩
  have hPartition :=
    partitioned_tokensAt hFresh
      (partitioned_create Grammar.markedNotes document 0)
  have hJoined :=
    @text_joined Grammar.markedNotes document 0 m _ (by decide) hToken
      (by decide) (by decide) (some .ignore) 1
  -- Nothing is evaluated where both sides are written out alike.
  dsimp only [merged, fresh] at hMerged hMarked hTexts hJoined hAnswer ⊢
  rw [hMerged] at hJoined ⊢
  simp only [hAnswer] at hJoined ⊢
  have hBoth :=
    hJoined
      (fun line _ hTo =>
        (Extract.any_marked_iff hPartition).mp
          (hMarked line (List.mem_range.mpr (Nat.lt_succ_of_le hTo))))
      (Extract.clearOutside_of_forall (by decide +kernel) _ _)
  exact hBoth.1.trans (congrArg _ hTexts)

/-
  Without the condition on the white space, the texts of the lines
  are not that of the merged comment: a vertical tab before the
  second note is not trimmed.
-/
theorem TokenizedDocument.text_ne_joined :
    let document : Document :=
      ⟨utf8 "file:///a", utf8 "notes", 1, utf8 "# a\n\x0b# b"⟩
    let fresh := create Grammar.markedNotes document 0
    let m : CommentMatch :=
      ⟨0, 0, utf8 "comment.line.number-sign", .exact⟩
    let merged :=
      (answer (CommentSpan.ofMatch fresh.lines m (some .ignore)) fresh).1
    let own := fun line =>
      (answer
        (CommentSpan.ofMatch fresh.lines
          (m.inLine fresh.lines fresh.tokensAt line) none)
        fresh).1
    let text? := fun span =>
      (answer (Extract.text? fresh.lines span m.scope) fresh).1
    merged = ⟨0, 0, 1, 4⟩ ∧
      (∀ line ∈ [0, 1],
        (own line).MeetsMark fresh.lines fresh.tokensAt) ∧
      [0, 1].filterMap (fun line => text? (own line)) =
        [utf8 "a", utf8 "b"] ∧
      text? merged = some (utf8 "a \x0b  b") := by
  intro document fresh m merged own text?
  have hComputed :
      (extendWithin? 9 fresh.lines.size fresh).map
          (fun d =>
            let own := fun line =>
              (CommentSpan.ofMatch fresh.lines
                (m.inLine fresh.lines d.tokensIn line) none).eval
                d.tokensIn
            let merged :=
              (CommentSpan.ofMatch fresh.lines m (some .ignore)).eval
                d.tokensIn
            (merged,
              [0, 1].all (fun line =>
                (Extract.allParts fresh.lines d.tokensIn
                  (own line)).any LinePart.marked),
              [0, 1].filterMap (fun line =>
                (Extract.text? fresh.lines (own line) m.scope).eval
                  d.tokensIn),
              (Extract.text? fresh.lines merged m.scope).eval
                d.tokensIn)) =
        some
          (⟨0, 0, 1, 4⟩, true, [utf8 "a", utf8 "b"],
            some (utf8 "a \x0b  b")) := by
    decide +kernel
  rcases Option.map_eq_some_iff.mp hComputed with
    ⟨final, hExtend, hAll⟩
  have hFresh := fresh_create Grammar.markedNotes document 0
  have hTokens : fresh.tokensAt = final.tokensIn :=
    tokensAt_of_extendWithin? hFresh hExtend
  have hAnswer :
      ∀ {α : Type} (q : TokenQuery α),
        (answer q fresh).1 = q.eval fresh.tokensAt := by
    intro α q
    rw [hTokens]
    exact answer_of_extendWithin? hFresh hExtend q 0
  have hPartition :=
    partitioned_tokensAt hFresh
      (partitioned_create Grammar.markedNotes document 0)
  simp only [← hTokens, Prod.mk.injEq, List.all_eq_true] at hAll
  rcases hAll with ⟨hMerged, hMarked, hTexts, hText⟩
  simp only [merged, own, text?, hAnswer]
  exact
    ⟨hMerged,
      fun line hLine =>
        (Extract.any_marked_iff hPartition).mp (hMarked line hLine),
      hTexts, hText⟩

end Marginalia

import Marginalia.Proofs.Comment.Widening

/-
  This file proves which bytes a span holds, column by column.  The
  tokens of a line take it apart, so what the tokens add to the
  content of a line is what stands between two columns of the line
  with spaces for its marks.

  Key definitions include:
    * `CommentSpan.contains`
    * `CommentSpan.bytes`, `CommentSpan.unmarkedBytes`
    * `CommentSpan.MeetsMark`
    * `Extract.shown`
  The main statements are:
    * `Tokens.zipIdx_eq_flatMap`
    * `Extract.content_eq_slice`
    * `Extract.bytes_eq_flatMap`
    * `Extract.any_marked_iff`
    * `Extract.eval_text?_eq`
-/

namespace Marginalia

------------------------------------------------------------
-- The Bytes of a Span
------------------------------------------------------------

namespace CommentSpan

/- The span holds the byte at a column of a line. -/
def contains (span : CommentSpan) (line column : Nat) : Bool :=
  (decide (span.startLine < line) ||
      (decide (span.startLine = line) &&
        decide (span.startColumn ≤ column))) &&
    (decide (line < span.stopLine) ||
      (decide (line = span.stopLine) &&
        decide (column < span.stopColumn)))

/- A token of a mark covers the column. -/
def marksAt (tokens : List Token) (column : Nat) : Bool :=
  tokens.any
    (fun t =>
      t.isMark && decide (t.start ≤ column) && decide (column < t.stop))

/- The bytes of a line, in order, at the columns that are taken. -/
def lineBytes (takes : Nat → Bool) (text : Bytes) : Bytes :=
  (text.zipIdx.filter (fun item => takes item.2)).map Prod.fst

/- The bytes of a span in order. -/
def bytes (lines : Array Bytes) (span : CommentSpan) : Bytes :=
  (List.range lines.size).flatMap
    (fun line => lineBytes (span.contains line) (lines.getD line []))

/- The same without the bytes of marks. -/
def unmarkedBytes
    (lines : Array Bytes)
    (tokens : Nat → List Token)
    (span : CommentSpan) : Bytes :=
  (List.range lines.size).flatMap
    (fun line =>
      lineBytes
        (fun column =>
          span.contains line column && !marksAt (tokens line) column)
        (lines.getD line []))

/- A mark covers a byte of the span. -/
def MeetsMark
    (lines : Array Bytes)
    (tokens : Nat → List Token)
    (span : CommentSpan) : Prop :=
  ∃ line < lines.size,
    ∃ column,
      span.contains line column = true ∧
        marksAt (tokens line) column = true

variable {span : CommentSpan}
variable {line column : Nat}
variable {text : Bytes}

/- A line of a span has the columns that the span holds of it. -/
theorem contains_eq_columns
    (hFrom : span.startLine ≤ line)
    (hTo : line ≤ span.stopLine)
    (hColumn : column < text.length) :
    span.contains line column =
      (decide ((Extract.columns span line text).1 ≤ column) &&
        decide (column < (Extract.columns span line text).2)) := by
  unfold contains Extract.columns
  dsimp only
  rw [Bool.eq_iff_iff]
  simp only [Bool.and_eq_true, Bool.or_eq_true, decide_eq_true_eq]
  split <;> split <;> omega

/- Other lines have none. -/
theorem contains_eq_false
    (hOther : ¬(span.startLine ≤ line ∧ line ≤ span.stopLine)) :
    span.contains line column = false := by
  unfold contains
  rw [Bool.eq_false_iff]
  simp only [ne_eq, Bool.and_eq_true, Bool.or_eq_true,
    decide_eq_true_eq]
  omega

end CommentSpan

------------------------------------------------------------
-- Slices
------------------------------------------------------------

namespace Bytes

/-
  The items between two columns follow one another, from whatever
  column they are counted.
-/
theorem filter_zipIdx_between
    (start stop : Nat)
    (s : Bytes) :
    ∀ first : Nat,
      (s.zipIdx first).filter
          (fun item =>
            decide (start ≤ item.2) && decide (item.2 < stop)) =
        ((s.zipIdx first).drop (start - first)).take
          (stop - first - (start - first)) := by
  induction s with
  | nil =>
      intro first
      simp
  | cons b s ih =>
      intro first
      rw [List.zipIdx_cons, List.filter_cons]
      by_cases hStart : start ≤ first
      · by_cases hStop : first < stop
        · have hNext : stop - first = stop - (first + 1) + 1 := by omega
          rw [if_pos (by simp [hStart, hStop]), ih,
            Nat.sub_eq_zero_of_le hStart,
            Nat.sub_eq_zero_of_le (Nat.le_succ_of_le hStart), hNext]
          rfl
        · have hNone : stop - (first + 1) = 0 := by omega
          rw [if_neg (by simp [hStop]), ih, hNone,
            Nat.sub_eq_zero_of_le (Nat.le_of_not_lt hStop)]
          simp
      · have hNext : start - first = start - (first + 1) + 1 := by omega
        have hWidth :
            stop - first - (start - first) =
              stop - (first + 1) - (start - (first + 1)) := by omega
        rw [if_neg (by simp [hStart]), ih, hWidth, hNext,
          List.drop_succ_cons]

/- The bytes of these items are a slice. -/
theorem map_filter_zipIdx_between
    (start stop first : Nat)
    (s : Bytes) :
    ((s.zipIdx first).filter
          (fun item =>
            decide (start ≤ item.2) && decide (item.2 < stop))).map
        Prod.fst =
      s.slice (start - first) (stop - first) := by
  unfold slice
  rw [filter_zipIdx_between, List.map_take, List.map_drop,
    List.zipIdx_map_fst]

/- A slice of a slice is a slice of the text. -/
theorem slice_slice
    (first last start stop : Nat)
    (s : Bytes) :
    (s.slice first last).slice (start - first) (stop - first) =
      s.slice (max first start) (min last stop) := by
  have hStart : first + (start - first) = max first start := by omega
  have hWidth :
      min (stop - first - (start - first))
          (last - first - (start - first)) =
        min last stop - max first start := by omega
  unfold slice
  rw [List.drop_take, List.drop_drop, List.take_take, hStart, hWidth]

/- A slice inside a text is as long as its columns are apart. -/
theorem length_slice
    {s : Bytes}
    {start stop : Nat}
    (hStop : stop ≤ s.length) :
    (s.slice start stop).length = stop - start := by
  unfold slice
  rw [List.length_take, List.length_drop]
  omega

end Bytes

namespace CommentSpan

variable {text : Bytes}

/- The bytes between two columns are a slice. -/
theorem lineBytes_between
    (start stop : Nat)
    (text : Bytes) :
    lineBytes
        (fun column => decide (start ≤ column) && decide (column < stop))
        text =
      text.slice start stop :=
  Bytes.map_filter_zipIdx_between start stop 0 text

/- Only the columns of a line matter. -/
theorem lineBytes_congr
    {takes other : Nat → Bool}
    (hSame : ∀ column < text.length, takes column = other column) :
    lineBytes takes text = lineBytes other text := by
  unfold lineBytes
  refine congrArg _ (List.filter_congr ?_)
  rintro ⟨b, column⟩ hItem
  rcases List.mem_zipIdx' hItem with ⟨hColumn, _⟩
  exact hSame column hColumn

/- Where no column is taken, no byte is. -/
theorem lineBytes_of_none
    {takes : Nat → Bool}
    (hNone : ∀ column, takes column = false)
    (text : Bytes) :
    lineBytes takes text = [] := by
  unfold lineBytes
  simp [hNone]

end CommentSpan

------------------------------------------------------------
-- Tokens by Column
------------------------------------------------------------

namespace Tokens

variable {text : Bytes}
variable {tokens : List Token}

/-
  Tokens that follow one another up to the end of a line take it
  apart.  The induction is on the tokens, and moves the column
  where they start.
-/
theorem zipIdx_drop_eq_flatMap
    (tokens : List Token) :
    ∀ {token : Token},
      (token :: tokens).IsChain (fun t next => next.start = t.stop) →
        (∀ t ∈ token :: tokens,
            t.start < t.stop ∧ t.stop ≤ text.length) →
          (∀ t ∈ (token :: tokens).getLast?, t.stop = text.length) →
            (text.drop token.start).zipIdx token.start =
              (token :: tokens).flatMap
                (fun t => (text.slice t.start t.stop).zipIdx t.start) := by
  induction tokens with
  | nil =>
      intro token _ _ hStop
      have hAll : text.drop token.start = text.slice token.start token.stop := by
        unfold Bytes.slice
        rw [hStop token rfl, ← List.length_drop, List.take_length]
      rw [hAll, List.flatMap_singleton]
  | cons next rest ih =>
      intro token hChain hWide hStop
      rcases hWide token List.mem_cons_self with ⟨hNarrow, hInside⟩
      rw [List.isChain_cons_cons] at hChain
      have hLater :=
        ih hChain.2 (fun t hMember => hWide t (List.mem_cons_of_mem _ hMember))
          (by simpa [List.getLast?_cons_cons] using hStop)
      have hLength :
          (text.slice token.start token.stop).length =
            token.stop - token.start := by
        unfold Bytes.slice
        rw [List.length_take, List.length_drop]
        omega
      have hSplit :
          text.drop token.start =
            text.slice token.start token.stop ++ text.drop next.start := by
        unfold Bytes.slice
        rw [hChain.1, ← Nat.add_sub_cancel' (Nat.le_of_lt hNarrow),
          ← List.drop_drop, Nat.add_sub_cancel_left,
          List.take_append_drop]
      rw [hSplit, List.zipIdx_append, hLength,
        Nat.add_sub_cancel' (Nat.le_of_lt hNarrow), List.flatMap_cons,
        ← hLater, hChain.1]

/- Tokens that partition a line take it apart. -/
theorem zipIdx_eq_flatMap
    (hPartition : Partition text.length tokens) :
    text.zipIdx =
      tokens.flatMap
        (fun t => (text.slice t.start t.stop).zipIdx t.start) := by
  cases tokens with
  | nil =>
      rw [List.length_eq_zero_iff.mp (hPartition.eq_nil_iff.mp rfl)]
      rfl
  | cons token rest =>
      have hStart := hPartition.start_of_first token rfl
      have hWide :
          ∀ t ∈ token :: rest, t.start < t.stop ∧ t.stop ≤ text.length :=
        fun t hMember =>
          ⟨hPartition.start_lt_stop t hMember,
            stop_le_of_mem hPartition hMember⟩
      rw [← zipIdx_drop_eq_flatMap rest hPartition.start_of_next hWide
        hPartition.stop_of_last, hStart]
      rfl

/- No two tokens cover a column. -/
theorem eq_of_covers
    {length column : Nat}
    {token other : Token}
    (hPartition : Partition length tokens)
    (hToken : token ∈ tokens)
    (hOther : other ∈ tokens)
    (hCovers : token.start ≤ column ∧ column < token.stop)
    (hAlso : other.start ≤ column ∧ column < other.stop) :
    other = token := by
  have hOrder := pairwise_of_partition hPartition
  rw [List.pairwise_iff_getElem] at hOrder
  rcases List.mem_iff_getElem.mp hToken with ⟨i, hI, rfl⟩
  rcases List.mem_iff_getElem.mp hOther with ⟨j, hJ, rfl⟩
  rcases Nat.lt_trichotomy i j with hLt | rfl | hGt
  · have hApart := hOrder i j hI hJ hLt
    omega
  · rfl
  · have hApart := hOrder j i hJ hI hGt
    omega

/- The token that covers a column tells whether a mark does. -/
theorem marksAt_eq_isMark
    {token : Token}
    {column : Nat}
    (hPartition : Partition text.length tokens)
    (hMember : token ∈ tokens)
    (hStart : token.start ≤ column)
    (hStop : column < token.stop) :
    CommentSpan.marksAt tokens column = token.isMark := by
  unfold CommentSpan.marksAt
  rw [Bool.eq_iff_iff, List.any_eq_true]
  constructor
  · rintro ⟨other, hOther, hCovers⟩
    simp only [Bool.and_eq_true, decide_eq_true_eq] at hCovers
    have hSame : other = token :=
      eq_of_covers hPartition hMember hOther ⟨hStart, hStop⟩
        ⟨hCovers.1.2, hCovers.2⟩
    rw [← hSame]
    exact hCovers.1.1
  · intro hMark
    exact ⟨token, hMember, by simp [hMark, hStart, hStop]⟩

end Tokens

------------------------------------------------------------
-- Parts by Column
------------------------------------------------------------

namespace Extract

variable {lines : Array Bytes}
variable {tokens : Nat → List Token}
variable {span : CommentSpan}

/- A line with spaces for its marks. -/
def shown (text : Bytes) (tokens : List Token) : Bytes :=
  text.zipIdx.map
    (fun item =>
      if CommentSpan.marksAt tokens item.2 then Ascii.space else item.1)

/- What stands in it between two columns. -/
theorem slice_shown
    (start stop : Nat)
    (text : Bytes)
    (ts : List Token) :
    (shown text ts).slice start stop =
      (text.zipIdx.filter
            (fun item =>
              decide (start ≤ item.2) && decide (item.2 < stop))).map
        (fun item =>
          if CommentSpan.marksAt ts item.2 then Ascii.space
          else item.1) := by
  unfold shown Bytes.slice
  rw [Bytes.filter_zipIdx_between, List.map_take, List.map_drop,
    Nat.sub_zero, Nat.sub_zero]

/- What a token adds to the content of a line are its columns. -/
theorem tokenContent_eq
    {text : Bytes}
    {ts : List Token}
    {t : Token}
    (hPartition : Tokens.Partition text.length ts)
    (hMember : t ∈ ts)
    (start stop : Nat) :
    tokenContent text start stop t =
      (((text.slice t.start t.stop).zipIdx t.start).filter
            (fun item =>
              decide (start ≤ item.2) && decide (item.2 < stop))).map
        (fun item =>
          if CommentSpan.marksAt ts item.2 then Ascii.space
          else item.1) := by
  have hStop := Tokens.stop_le_of_mem hPartition hMember
  have hMarks :
      ∀ item ∈ (text.slice t.start t.stop).zipIdx t.start,
        CommentSpan.marksAt ts item.2 = t.isMark := by
    rintro ⟨b, column⟩ hItem
    rcases List.mem_zipIdx hItem with ⟨hFrom, hTo, _⟩
    rw [Bytes.length_slice hStop] at hTo
    exact Tokens.marksAt_eq_isMark hPartition hMember hFrom (by omega)
  have hSlice :=
    Bytes.map_filter_zipIdx_between start stop t.start
      (text.slice t.start t.stop)
  rw [Bytes.slice_slice] at hSlice
  have hItems :
      ((((text.slice t.start t.stop).zipIdx t.start).filter
              (fun item =>
                decide (start ≤ item.2) && decide (item.2 < stop))).map
          (fun item =>
            if CommentSpan.marksAt ts item.2 then Ascii.space
            else item.1)) =
        (text.slice (max t.start start) (min t.stop stop)).map
          (fun b => if t.isMark then Ascii.space else b) := by
    rw [← hSlice, List.map_map]
    refine List.map_congr_left ?_
    intro item hItem
    rw [hMarks item (List.mem_filter.mp hItem).1]
    rfl
  rw [hItems]
  unfold tokenContent
  dsimp only
  cases t.isMark with
  | true =>
      rw [if_pos rfl, ← Bytes.length_slice
        (Nat.le_trans (Nat.min_le_left t.stop stop) hStop)]
      simp
  | false =>
      rw [if_neg Bool.false_ne_true]
      simp

/-
  The content of a line between two columns is what stands there in
  the line with spaces for its marks.
-/
theorem content_eq_slice
    {text : Bytes}
    {ts : List Token}
    (hPartition : Tokens.Partition text.length ts)
    (start stop : Nat) :
    ts.flatMap (tokenContent text start stop) =
      (shown text ts).slice start stop := by
  rw [slice_shown, Tokens.zipIdx_eq_flatMap hPartition,
    List.filter_flatMap, List.map_flatMap]
  exact
    List.flatMap_congr
      (fun t hMember => tokenContent_eq hPartition hMember start stop)

/- The parts of a span are those of its lines, in order. -/
theorem eval_parts_eq_map
    (span : CommentSpan)
    (remaining : Nat) :
    ∀ line : Nat,
      (parts lines span remaining line).eval tokens =
        (List.range' line remaining).map
          (fun l => part span l (lines.getD l []) (tokens l)) := by
  induction remaining with
  | zero =>
      intro line
      rfl
  | succ remaining ih =>
      intro line
      simp only [parts, TokenQuery.eval_bind, TokenQuery.eval_tokensOf,
        TokenQuery.eval_pure, ih, List.range'_succ, List.map_cons]

/- What the lines of the document add is what those of the span add. -/
theorem flatMap_range_eq
    {f : Nat → Bytes}
    (hOther :
      ∀ l,
        ¬(span.startLine ≤ l ∧ l ≤ span.stopLine) → f l = []) :
    (List.range lines.size).flatMap f =
      (List.range' span.startLine (lineCount lines span)).flatMap f := by
  have hNone : ∀ first count,
      (∀ l, first ≤ l → l < first + count →
        ¬(span.startLine ≤ l ∧ l ≤ span.stopLine)) →
        (List.range' first count).flatMap f = [] := by
    intro first count hOut
    rw [List.flatMap_eq_nil_iff]
    intro l hLine
    rw [List.mem_range'_1] at hLine
    exact hOther l (hOut l hLine.1 hLine.2)
  rw [List.range_eq_range']
  by_cases hSome : lineCount lines span = 0
  · rw [hSome, List.range'_zero, List.flatMap_nil]
    refine hNone 0 lines.size ?_
    unfold lineCount at hSome
    omega
  · -- The lines before the span and those behind it add nothing.
    have hRest :
        ∃ rest,
          lines.size = span.startLine + (lineCount lines span + rest) := by
      refine
        ⟨lines.size - (span.startLine + lineCount lines span), ?_⟩
      unfold lineCount at *
      omega
    rcases hRest with ⟨rest, hSize⟩
    have hBefore := hNone 0 span.startLine (by omega)
    have hBehind :=
      hNone (span.startLine + lineCount lines span) rest
        (by unfold lineCount at *; omega)
    rw [hSize, ← List.range'_append_1, ← List.range'_append_1,
      Nat.zero_add, List.flatMap_append, List.flatMap_append, hBefore,
      hBehind, List.nil_append, List.append_nil]

/- The bytes of a span are those of its parts as they are. -/
theorem bytes_eq_flatMap
    (lines : Array Bytes)
    (tokens : Nat → List Token)
    (span : CommentSpan) :
    span.bytes lines = (allParts lines tokens span).flatMap LinePart.raw := by
  unfold allParts CommentSpan.bytes
  rw [eval_parts_eq_map, List.flatMap_map, flatMap_range_eq]
  · refine List.flatMap_congr ?_
    intro l hLine
    rw [List.mem_range'_1] at hLine
    unfold lineCount at hLine
    rw [CommentSpan.lineBytes_congr
        (fun column hColumn =>
          CommentSpan.contains_eq_columns hLine.1 (by omega) hColumn),
      CommentSpan.lineBytes_between]
    rfl
  · intro l hOther
    exact
      CommentSpan.lineBytes_of_none
        (fun _ => CommentSpan.contains_eq_false hOther) _

/- A part is marked if a mark covers a byte of the span in its line. -/
theorem marked_part_iff
    {l : Nat}
    (hTokens : Tokens.Partitioned lines tokens)
    (hLine : l < lines.size)
    (hFrom : span.startLine ≤ l)
    (hTo : l ≤ span.stopLine) :
    (part span l (lines.getD l []) (tokens l)).marked = true ↔
      ∃ column,
        span.contains l column = true ∧
          CommentSpan.marksAt (tokens l) column = true := by
  have hStop := snd_columns_le span l (lines.getD l [])
  unfold part CommentSpan.marksAt
  dsimp only
  simp only [List.any_eq_true, meetsMark, Bool.and_eq_true,
    decide_eq_true_eq]
  constructor
  · rintro ⟨t, hMember, hMark, hMeets⟩
    have hInside :
        max t.start (columns span l (lines.getD l [])).1 <
          (lines.getD l []).length := by
      omega
    refine
      ⟨max t.start (columns span l (lines.getD l [])).1, ?_, t, hMember,
        ⟨hMark, by omega⟩, by omega⟩
    rw [CommentSpan.contains_eq_columns hFrom hTo hInside]
    simp only [Bool.and_eq_true, decide_eq_true_eq]
    omega
  · rintro ⟨column, hHolds, t, hMember, ⟨hMark, hStart⟩, hInside⟩
    have hLength := Tokens.stop_le_of_mem (hTokens l hLine) hMember
    rw [CommentSpan.contains_eq_columns hFrom hTo
      (Nat.lt_of_lt_of_le hInside hLength)] at hHolds
    simp only [Bool.and_eq_true, decide_eq_true_eq] at hHolds
    exact ⟨t, hMember, hMark, by omega⟩

/- Some part of the span is marked if a mark meets the span. -/
theorem any_marked_iff
    (hTokens : Tokens.Partitioned lines tokens) :
    (allParts lines tokens span).any LinePart.marked = true ↔
      span.MeetsMark lines tokens := by
  rw [List.any_eq_true]
  constructor
  · rintro ⟨p, hPart, hMarked⟩
    rcases mem_allParts_iff.mp hPart with ⟨l, hFrom, hTo, hLine, rfl⟩
    exact
      ⟨l, hLine, (marked_part_iff hTokens hLine hFrom hTo).mp hMarked⟩
  · rintro ⟨l, hLine, column, hHolds, hMark⟩
    have hIn : span.startLine ≤ l ∧ l ≤ span.stopLine := by
      by_contra hOther
      rw [CommentSpan.contains_eq_false hOther] at hHolds
      cases hHolds
    exact
      ⟨_, mem_allParts_iff.mpr ⟨l, hIn.1, hIn.2, hLine, rfl⟩,
        (marked_part_iff hTokens hLine hIn.1 hIn.2).mpr
          ⟨column, hHolds, hMark⟩⟩

------------------------------------------------------------
-- Words
------------------------------------------------------------

/- The text of a span is that of its lines, if anything is left. -/
theorem eval_text?_eq
    (lines : Array Bytes)
    (tokens : Nat → List Token)
    (span : CommentSpan)
    (scope : Scope) :
    (text? lines span scope).eval tokens =
      if (joinLines (strip scope (allParts lines tokens span))).isEmpty
      then none
      else some (joinLines (strip scope (allParts lines tokens span))) := by
  unfold text? allParts
  rw [TokenQuery.eval_bind, TokenQuery.eval_pure]

end Extract

end Marginalia

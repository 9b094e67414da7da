import Marginalia.Proofs.Comment.Buffers

/-
  This file takes the marks of a comment away in place.  One index
  runs through the text, bytes are asked for as it goes, and those
  of a mark give way to spaces.  It is proved that no index leaves
  the text, and that the outcome is the comment without its marks.
  So it has all that the comment has but the marks.

  The mark that a block comment ends with is looked for when the
  one that it begins with is blank already, and the stars are
  looked for when both are.

  Key definitions include:
    * `Buffer.clearLineMark`, `Buffer.stripLine`
    * `Buffer.clearOpenMark`, `Buffer.clearCloseMark`
    * `Buffer.clearStars`, `Buffer.stripBlock`
  The main statements are:
    * `Buffer.run_stripLine`
    * `Buffer.run_stripBlock`
    * `Marker.strip_clears_marks_only`
-/

namespace Marginalia

namespace Buffer

open Marker

variable {limit i : Nat}
variable {front mark run rest : Bytes}
variable {p : UInt8 → Bool}

------------------------------------------------------------
-- Marks of Line Comments
------------------------------------------------------------

/- Write spaces over a text, and over what goes on behind it. -/
def clearMark
    (text : Bytes)
    (p : UInt8 → Bool)
    (limit i : Nat) : Buffer Nat := do
  clearMany text.length i
  clearUp p limit (i + text.length)

/- Write spaces over a run of `#` and over a bang behind it. -/
def clearHashes (limit i : Nat) : Buffer Nat := do
  let stop ← clearUp (· == Ascii.hash) limit i
  if ← standsAt limit stop Ascii.bang then
    clear stop
    pure (stop + 1)
  else pure stop

/- Write spaces over the mark of a line comment. -/
def clearLineMark (limit i : Nat) : Buffer Nat := do
  let b ← byteAt i
  if b = Ascii.slash then
    if ← standsAt limit (i + 1) Ascii.slash then
      clearMark [Ascii.slash, Ascii.slash]
        (fun c => c == Ascii.slash || c == Ascii.bang) limit i
    else pure i
  else if b = Ascii.hash then clearHashes limit i
  else if b = Ascii.percent ∨ b = Ascii.semicolon then
    clearUp (· == b) limit i
  else if b = Ascii.minus then
    if ← standsAt limit (i + 1) Ascii.minus then
      clearUp (· == Ascii.minus) limit i
    else pure i
  else pure i

/-
  Take the mark of a line comment away, and make the spaces and
  tabs behind it spaces.
-/
def stripLine : Buffer Unit := do
  let size := (← get).length
  let start ← passUp Ascii.isBlank size 0
  if start < size then
    let stop ← clearLineMark size start
    let _ ←
      clearUp (fun b => b == Ascii.space || b == Ascii.tab) size stop

/- A run of one byte passes the test for it, and ends no line. -/
theorem all_replicate
    {b : UInt8}
    (hByte : b ≠ Ascii.lf ∧ b ≠ Ascii.cr)
    (n : Nat) :
    ∀ c ∈ List.replicate n b,
      (c == b) = true ∧ c ≠ Ascii.lf ∧ c ≠ Ascii.cr := by
  intro c hIn
  rw [List.eq_of_mem_replicate hIn]
  exact ⟨beq_self_eq_true b, hByte⟩

/- A run of one byte is cleared up to where another byte follows. -/
theorem run_clearRow
    {b : UInt8}
    {n : Nat}
    (hByte : b ≠ Ascii.lf ∧ b ≠ Ascii.cr)
    (hRest : ∀ c ∈ rest.head?, c ≠ b)
    (hIndex : i = front.length)
    (hLimit : limit = (front ++ List.replicate n b ++ rest).length) :
    (clearUp (· == b) limit i).run (front ++ List.replicate n b ++ rest) =
      some (i + (List.replicate n b).length,
        front ++ spaces (List.replicate n b) ++ rest) :=
  run_clearUp (all_replicate hByte n)
    (fun c hHead => beq_eq_false_iff_ne.mpr (hRest c hHead)) hIndex hLimit

/- Two runs are cleared one after the other. -/
theorem run_clearMark
    {text : Bytes}
    (hText : ∀ b ∈ text, b ≠ Ascii.lf ∧ b ≠ Ascii.cr)
    (hRun : ∀ b ∈ run, p b = true ∧ b ≠ Ascii.lf ∧ b ≠ Ascii.cr)
    (hRest : ∀ b ∈ rest.head?, p b = false)
    (hIndex : i = front.length)
    (hLimit : limit = (front ++ (text ++ run) ++ rest).length) :
    (clearMark text p limit i).run (front ++ (text ++ run) ++ rest) =
      some (i + (text ++ run).length,
        front ++ spaces (text ++ run) ++ rest) := by
  have hIndex' : i + text.length = (front ++ spaces text).length := by
    simp [hIndex]
  have hLimit' :
      limit = (front ++ spaces text ++ run ++ rest).length := by
    simp [hLimit]
  have hFirst := run_clearMany hText (run ++ rest) hIndex
  have hMore := run_clearUp hRun hRest hIndex' hLimit'
  unfold clearMark
  rw [spaces_append, List.length_append, ← Nat.add_assoc]
  simp only [List.append_assoc] at hFirst hMore ⊢
  rw [run_bind_of_run hFirst, hMore]

theorem run_clearHashes
    (n : Nat)
    (hRest : ∀ b ∈ rest.head?, b ≠ Ascii.hash ∧ b ≠ Ascii.bang)
    (hIndex : i = front.length)
    (hLimit :
      limit = (front ++ List.replicate n Ascii.hash ++ rest).length) :
    (clearHashes limit i).run
        (front ++ List.replicate n Ascii.hash ++ rest) =
      some (i + (List.replicate n Ascii.hash).length,
        front ++ spaces (List.replicate n Ascii.hash) ++ rest) := by
  have hRow :=
    run_clearRow (by decide) (fun b hHead => (hRest b hHead).1) hIndex
      hLimit
  unfold clearHashes
  rw [run_bind_of_run hRow,
    run_bind_of_run (run_standsAt Ascii.bang (by simp [hLimit]))]
  cases rest with
  | nil =>
      rw [if_neg (by simp [hIndex, hLimit])]
      rfl
  | cons b rest =>
      rw [if_neg (by simpa [hIndex, hLimit] using (hRest b rfl).2)]
      rfl

theorem run_clearHashes_bang
    (n : Nat)
    (rest : Bytes)
    (hIndex : i = front.length)
    (hLimit :
      limit =
        (front ++ List.replicate n Ascii.hash ++
          Ascii.bang :: rest).length) :
    (clearHashes limit i).run
        (front ++ List.replicate n Ascii.hash ++ Ascii.bang :: rest) =
      some (i + (List.replicate n Ascii.hash).length + 1,
        front ++ spaces (List.replicate n Ascii.hash) ++
          Ascii.space :: rest) := by
  have hRow :=
    run_clearRow (b := Ascii.hash) (by decide) (by rintro _ ⟨⟩; decide)
      hIndex hLimit
  unfold clearHashes
  rw [run_bind_of_run hRow,
    run_bind_of_run (run_standsAt Ascii.bang (by simp [hLimit])),
    if_pos (by simp [hIndex, hLimit]),
    run_bind_of_run (run_clear (by decide) rest (by simp [hIndex]))]
  rfl

/- The second byte is not there if the two begin no mark. -/
theorem not_standsAt
    {a b : UInt8}
    (hNone : ¬ [a, b] <+: a :: rest)
    (hIndex : i = front.length) :
    ¬ (decide (i + 1 < limit) &&
        (front ++ a :: rest)[i + 1]? == some b) = true := by
  intro hBoth
  rw [Bool.and_eq_true, beq_iff_eq] at hBoth
  cases rest with
  | nil => simp [hIndex] at hBoth
  | cons c rest =>
      have hSame : c = b := by simpa [hIndex] using hBoth.2
      exact hNone (by simp [hSame])

/- A line comment without a mark stays as it is. -/
theorem run_clearLineMark_none
    {b : UInt8}
    (hNone : ∀ start ∈ lineStarts, ¬ start <+: b :: rest)
    (hIndex : i = front.length)
    (hLimit : limit = (front ++ b :: rest).length) :
    (clearLineMark limit i).run (front ++ b :: rest) =
      some (i, front ++ b :: rest) := by
  have hOther :
      b ≠ Ascii.hash ∧ b ≠ Ascii.percent ∧ b ≠ Ascii.semicolon := by
    refine ⟨?_, ?_, ?_⟩ <;> rintro rfl
    · exact hNone [Ascii.hash] (by decide) (by simp)
    · exact hNone [Ascii.percent] (by decide) (by simp)
    · exact hNone [Ascii.semicolon] (by decide) (by simp)
  unfold clearLineMark
  rw [run_bind_of_run (run_byteAt (getElem?_front b rest hIndex)),
    if_neg hOther.1, if_neg (not_or.mpr hOther.2)]
  split
  · next hSlash =>
      subst hSlash
      rw [run_bind_of_run (run_standsAt Ascii.slash hLimit.le),
        if_neg (not_standsAt (hNone _ (by decide)) hIndex)]
      rfl
  · split
    · next hMinus =>
        subst hMinus
        rw [run_bind_of_run (run_standsAt Ascii.minus hLimit.le),
          if_neg (not_standsAt (hNone _ (by decide)) hIndex)]
        rfl
    · rfl

/- The mark of a line comment is cleared, whichever it is. -/
theorem run_clearLineMark
    (front : Bytes)
    (hMark : LineMark mark rest)
    (hSome : mark ++ rest ≠ [])
    (hIndex : i = front.length)
    (hLimit : limit = (front ++ mark ++ rest).length) :
    (clearLineMark limit i).run (front ++ mark ++ rest) =
      some (i + mark.length, front ++ spaces mark ++ rest) := by
  have hByte {b : UInt8} (hHead : (mark ++ rest).head? = some b) :
      (byteAt i).run (front ++ mark ++ rest) =
        some (b, front ++ mark ++ rest) := by
    refine run_byteAt ?_
    rw [List.append_assoc, hIndex, List.getElem?_append_right le_rfl,
      Nat.sub_self, ← List.head?_eq_getElem?, hHead]
  have hMarkBytes :
      ∀ b ∈ mark, b ≠ Ascii.lf ∧ b ≠ Ascii.cr := fun b hIn =>
    ne_lineEnd_of_mem (by decide) (by decide)
      (mem_lineBytes_of_lineMark hMark hIn)
  cases hMark with
  | slashes hRun hRest =>
      rw [List.forall_mem_append] at hMarkBytes
      unfold clearLineMark
      rw [run_bind_of_run (hByte rfl), if_pos rfl,
        run_bind_of_run (run_standsAt Ascii.slash hLimit.le),
        if_pos (by simp [hIndex, hLimit])]
      refine run_clearMark hMarkBytes.1 ?_ ?_ hIndex hLimit
      · intro b hIn
        exact ⟨by simpa using hRun b hIn, hMarkBytes.2 b hIn⟩
      · intro b hHead
        simpa using hRest b hHead
  | hashes n hRest =>
      unfold clearLineMark
      rw [run_bind_of_run (hByte rfl), if_neg (by decide), if_pos rfl]
      exact run_clearHashes (n + 1) hRest hIndex hLimit
  | hashBang n _ =>
      have hLimit' :
          limit =
            (front ++ List.replicate (n + 1) Ascii.hash ++
              Ascii.bang :: rest).length := by
        simp [hLimit]
      have hHashes := run_clearHashes_bang (n + 1) rest hIndex hLimit'
      unfold clearLineMark
      rw [run_bind_of_run (hByte rfl), if_neg (by decide), if_pos rfl,
        spaces_append, List.length_append, ← Nat.add_assoc]
      simpa using hHashes
  | @row b _ hRow n hRest =>
      have hNoEnd : b ≠ Ascii.lf ∧ b ≠ Ascii.cr := by
        rcases hRow with rfl | rfl <;> decide
      have hOther : b ≠ Ascii.slash ∧ b ≠ Ascii.hash := by
        rcases hRow with rfl | rfl <;> decide
      unfold clearLineMark
      rw [run_bind_of_run (hByte rfl), if_neg hOther.1,
        if_neg hOther.2, if_pos hRow]
      exact run_clearRow hNoEnd hRest hIndex hLimit
  | dashes n hRest =>
      unfold clearLineMark
      rw [run_bind_of_run (hByte rfl), if_neg (by decide),
        if_neg (by decide), if_neg (by decide), if_pos rfl,
        run_bind_of_run (run_standsAt Ascii.minus hLimit.le),
        if_pos (by simp [hIndex, hLimit, List.replicate_succ])]
      exact run_clearRow (by decide) hRest hIndex hLimit
  | none hNone =>
      rcases List.exists_cons_of_ne_nil hSome with ⟨b, tail, rfl⟩
      rw [List.append_nil] at hLimit
      have hStays := run_clearLineMark_none hNone hIndex hLimit
      simpa using hStays

/- The spaces and tabs behind the mark become spaces. -/
theorem run_clearGap
    {gap : Bytes}
    (hGap : ∀ b ∈ gap, b = Ascii.space ∨ b = Ascii.tab)
    (hRest : ∀ b ∈ rest.head?, b ≠ Ascii.space ∧ b ≠ Ascii.tab)
    (hIndex : i = front.length)
    (hLimit : limit = (front ++ gap ++ rest).length) :
    (clearUp (fun b => b == Ascii.space || b == Ascii.tab) limit i).run
        (front ++ gap ++ rest) =
      some (i + gap.length, front ++ spaces gap ++ rest) := by
  refine run_clearUp ?_ ?_ hIndex hLimit
  · intro b hByte
    rcases hGap b hByte with rfl | rfl <;> decide
  · intro b hHead
    simpa using hRest b hHead

/- The parts of a line comment are cleared in place. -/
theorem run_stripLine
    {s : Bytes}
    (parts : LineParts s) :
    stripLine.run s = some ((), parts.cleared) := by
  obtain ⟨lead, mark, gap, rest, rfl, hLead, hEnds, hMark, hGap, hRest⟩ :=
    parts
  have hPass := run_passUp_start hLead hEnds
  unfold stripLine LineParts.cleared
  simp only [List.append_assoc] at hPass ⊢
  rw [run_bind_of_run (a := lead ++ (mark ++ (gap ++ rest))) rfl,
    run_bind_of_run hPass]
  by_cases hNil : mark ++ (gap ++ rest) = []
  · rw [if_neg (by simp [hNil])]
    simp only [List.append_eq_nil_iff] at hNil
    simp [hNil]
  · have hInside :
        lead.length < (lead ++ (mark ++ (gap ++ rest))).length := by
      rw [List.length_append]
      exact Nat.lt_add_of_pos_right (List.length_pos_iff.mpr hNil)
    have hIndex :
        lead.length + mark.length = (lead ++ spaces mark).length := by
      simp
    have hLimit :
        (lead ++ (mark ++ (gap ++ rest))).length =
          (lead ++ spaces mark ++ gap ++ rest).length := by
      simp
    have hClear := run_clearLineMark lead hMark hNil rfl rfl
    have hWhite := run_clearGap hGap hRest hIndex hLimit
    simp only [List.append_assoc] at hClear hWhite
    rw [if_pos hInside, run_bind_of_run hClear, run_bind_of_run hWhite]
    rfl

------------------------------------------------------------
-- Marks of Block Comments
------------------------------------------------------------

/- Write spaces over a text, and over what goes on in front of it. -/
def clearMarkBefore
    (text : Bytes)
    (p : UInt8 → Bool)
    (stop : Nat) : Buffer Unit := do
  clearMany text.length (stop - text.length)
  clearDown p (stop - text.length)

/- Write spaces over the mark that a block comment begins with. -/
def clearOpenMark (limit i : Nat) : Buffer Unit := do
  if ← textAt limit i markupOpen then
    let _ ← clearMark markupOpen (· == Ascii.minus) limit i
  else if ← textAt limit i starOpen then
    let _ ← clearMark starOpen (· == Ascii.star) limit i
  else if ← textAt limit i braceOpen then
    clearMany braceOpen.length i

/- Write spaces over the mark that a block comment ends with. -/
def clearCloseMark (stop : Nat) : Buffer Unit := do
  if ← textBefore stop markupClose then
    clearMarkBefore markupClose (· == Ascii.minus) stop
  else if ← textBefore stop starClose then
    clearMarkBefore starClose (· == Ascii.star) stop
  else if ← textBefore stop braceClose then
    clearMany braceClose.length (stop - braceClose.length)

/- Look for that mark in front of the blanks at the end. -/
def clearEnd (limit : Nat) : Buffer Unit := do
  let stop ← passDown Ascii.isBlank limit
  clearCloseMark stop

theorem run_clearOpenMark
    (front : Bytes)
    (hMark : OpenMark mark rest)
    (hIndex : i = front.length)
    (hLimit : limit = (front ++ mark ++ rest).length) :
    (clearOpenMark limit i).run (front ++ mark ++ rest) =
      some ((), front ++ spaces mark ++ rest) := by
  have hText
      (text : Bytes)
      (found : Bool)
      (hFound : text.isPrefixOf (mark ++ rest) = found) :
      (textAt limit i text).run (front ++ mark ++ rest) =
        some (found, front ++ mark ++ rest) := by
    rw [List.append_assoc] at hLimit ⊢
    exact run_textAt hFound hIndex hLimit
  have hMarkBytes :
      ∀ b ∈ mark, b ≠ Ascii.lf ∧ b ≠ Ascii.cr := fun b hIn =>
    ne_lineEnd_of_mem (by decide) (by decide)
      (mem_blockBytes_of_openMark hMark hIn)
  unfold clearOpenMark
  cases hMark with
  | markup n hRest =>
      have hClear :=
        run_clearMark (List.forall_mem_append.mp hMarkBytes).1
          (all_replicate (b := Ascii.minus) (by decide) n)
          (fun b hHead => beq_eq_false_iff_ne.mpr (hRest b hHead)) hIndex
          hLimit
      rw [run_bind_of_run (hText markupOpen true rfl), if_pos rfl,
        run_bind_of_run hClear]
      rfl
  | star n hRest =>
      have hClear :=
        run_clearMark (List.forall_mem_append.mp hMarkBytes).1
          (all_replicate (b := Ascii.star) (by decide) n)
          (fun b hHead => beq_eq_false_iff_ne.mpr (hRest b hHead)) hIndex
          hLimit
      rw [run_bind_of_run (hText markupOpen false rfl),
        if_neg Bool.false_ne_true,
        run_bind_of_run (hText starOpen true rfl), if_pos rfl,
        run_bind_of_run hClear]
      rfl
  | brace =>
      rw [run_bind_of_run (hText markupOpen false rfl),
        if_neg Bool.false_ne_true,
        run_bind_of_run (hText starOpen false rfl),
        if_neg Bool.false_ne_true,
        run_bind_of_run (hText braceOpen true rfl), if_pos rfl]
      exact run_clearMany hMarkBytes rest hIndex
  | none hNone =>
      have hNot
          (start : Bytes)
          (hStart : start ∈ openStarts) :
          start.isPrefixOf ([] ++ rest) = false := by
        rw [Bool.eq_false_iff]
        exact fun hPrefix =>
          hNone start hStart (List.isPrefixOf_iff_prefix.mp hPrefix)
      rw [run_bind_of_run (hText _ _ (hNot markupOpen (by decide))),
        if_neg Bool.false_ne_true,
        run_bind_of_run (hText _ _ (hNot starOpen (by decide))),
        if_neg Bool.false_ne_true,
        run_bind_of_run (hText _ _ (hNot braceOpen (by decide))),
        if_neg Bool.false_ne_true]
      rfl

/- Two runs are cleared, the second one first. -/
theorem run_clearMarkBefore
    {text : Bytes}
    (hText : ∀ b ∈ text, b ≠ Ascii.lf ∧ b ≠ Ascii.cr)
    (hRun : ∀ b ∈ run, p b = true ∧ b ≠ Ascii.lf ∧ b ≠ Ascii.cr)
    (hFront : ∀ b ∈ front.getLast?, p b = false)
    (rest : Bytes) :
    (clearMarkBefore text p (front ++ (run ++ text)).length).run
        (front ++ (run ++ text) ++ rest) =
      some ((), front ++ spaces (run ++ text) ++ rest) := by
  have hIndex :
      (front ++ (run ++ text)).length - text.length =
        (front ++ run).length := by
    simp [← Nat.add_assoc]
  have hFirst := run_clearMany hText rest hIndex
  have hMore := run_clearDown hRun hFront (spaces text ++ rest)
  unfold clearMarkBefore
  rw [hIndex] at hFirst ⊢
  simp only [spaces_append, List.append_assoc] at hFirst hMore ⊢
  rw [run_bind_of_run hFirst, hMore]

theorem decide_suffix
    (front run text : Bytes) :
    decide (text <:+ front ++ (run ++ text)) = true := by
  rw [← List.append_assoc]
  exact decide_eq_true (List.suffix_append _ _)

/- Two marks that end with different bytes do not end one text. -/
theorem decide_suffix_of_ne
    (text other : Bytes)
    (hText : text ≠ [])
    (hOther : other ≠ [])
    (hLast : text.getLast? ≠ other.getLast?)
    (front run : Bytes) :
    decide (text <:+ front ++ (run ++ other)) = false := by
  rw [← List.append_assoc, decide_eq_false_iff_not]
  rintro ⟨before, hSame⟩
  have hEnds := congrArg List.getLast? hSame
  rw [List.getLast?_append_of_ne_nil _ hText,
    List.getLast?_append_of_ne_nil _ hOther] at hEnds
  exact hLast hEnds

theorem run_clearCloseMark
    (hMark : CloseMark front mark)
    (rest : Bytes) :
    (clearCloseMark (front ++ mark).length).run (front ++ mark ++ rest) =
      some ((), front ++ spaces mark ++ rest) := by
  have hMarkBytes :
      ∀ b ∈ mark, b ≠ Ascii.lf ∧ b ≠ Ascii.cr := fun b hIn =>
    ne_lineEnd_of_mem (by decide) (by decide)
      (mem_blockBytes_of_closeMark hMark hIn)
  unfold clearCloseMark
  cases hMark with
  | markup n hFront =>
      rw [run_bind_of_run (run_textBefore (decide_suffix _ _ _) rest),
        if_pos rfl]
      exact
        run_clearMarkBefore (List.forall_mem_append.mp hMarkBytes).2
          (all_replicate (by decide) n)
          (fun b hLast => beq_eq_false_iff_ne.mpr (hFront b hLast)) rest
  | star n hFront =>
      have hMarkup :=
        decide_suffix_of_ne markupClose starClose (by decide) (by decide)
          (by decide) front (List.replicate n Ascii.star)
      rw [run_bind_of_run (run_textBefore hMarkup rest),
        if_neg Bool.false_ne_true,
        run_bind_of_run (run_textBefore (decide_suffix _ _ _) rest),
        if_pos rfl]
      exact
        run_clearMarkBefore (List.forall_mem_append.mp hMarkBytes).2
          (all_replicate (by decide) n)
          (fun b hLast => beq_eq_false_iff_ne.mpr (hFront b hLast)) rest
  | brace =>
      have hMarkup :=
        decide_suffix_of_ne markupClose braceClose (by decide) (by decide)
          (by decide) front []
      have hStar :=
        decide_suffix_of_ne starClose braceClose (by decide) (by decide)
          (by decide) front []
      have hBrace := decide_suffix front [] braceClose
      rw [List.nil_append] at hMarkup hStar hBrace
      rw [run_bind_of_run (run_textBefore hMarkup rest),
        if_neg Bool.false_ne_true,
        run_bind_of_run (run_textBefore hStar rest),
        if_neg Bool.false_ne_true,
        run_bind_of_run (run_textBefore hBrace rest), if_pos rfl]
      exact run_clearMany hMarkBytes rest (by simp)
  | none hNone =>
      have hNot
          (stop : Bytes)
          (hStop : stop ∈ closeStops) :
          decide (stop <:+ front ++ []) = false := by
        rw [List.append_nil]
        exact decide_eq_false (hNone stop hStop)
      rw [run_bind_of_run
          (run_textBefore (hNot markupClose (by decide)) rest),
        if_neg Bool.false_ne_true,
        run_bind_of_run
          (run_textBefore (hNot starClose (by decide)) rest),
        if_neg Bool.false_ne_true,
        run_bind_of_run
          (run_textBefore (hNot braceClose (by decide)) rest),
        if_neg Bool.false_ne_true]
      rfl

/- Blanks in front do not matter to the mark at the end. -/
theorem run_clearEnd
    {body closing trail : Bytes}
    (hFront : ∀ b ∈ front, Ascii.isBlank b = true)
    (hMark : CloseMark body closing)
    (hTrail : ∀ b ∈ trail, Ascii.isBlank b = true)
    (hEnds : ∀ b ∈ (body ++ closing).getLast?, Ascii.isBlank b = false)
    (hLimit : limit = (front ++ body ++ closing ++ trail).length) :
    (clearEnd limit).run (front ++ body ++ closing ++ trail) =
      some ((), front ++ body ++ spaces closing ++ trail) := by
  subst hLimit
  unfold clearEnd
  by_cases hNil : body ++ closing = []
  · -- All is blank, so the start of the text is reached.
    have hAll : ∀ b ∈ front ++ trail, Ascii.isBlank b = true :=
      List.forall_mem_append.mpr ⟨hFront, hTrail⟩
    have hStart : ∀ b ∈ ([] : Bytes).getLast?, Ascii.isBlank b = false := by
      simp
    have hNone : CloseMark [] [] := .none (by decide)
    have hPass := run_passDown hAll hStart []
    have hClose := run_clearCloseMark hNone (front ++ trail)
    rw [List.append_eq_nil_iff] at hNil
    rw [List.nil_append, List.append_nil] at hPass
    rw [hNil.1, hNil.2, List.append_nil, List.append_nil,
      run_bind_of_run hPass]
    simpa using hClose
  · have hLast :
        ∀ b ∈ (front ++ body ++ closing).getLast?,
          Ascii.isBlank b = false := by
      rwa [List.append_assoc, List.getLast?_append_of_ne_nil _ hNil]
    have hPass := run_passDown hTrail hLast []
    rw [List.append_nil] at hPass
    rw [run_bind_of_run hPass]
    exact run_clearCloseMark ((closeMark_append_iff hFront).mpr hMark) trail

------------------------------------------------------------
-- Stars
------------------------------------------------------------

/- The index of the next line feed, or the size of the text. -/
def lineStop (s : Bytes) (i : Nat) : Nat :=
  i + ((s.drop i).takeWhile (· != Ascii.lf)).length

theorem le_lineStop
    (s : Bytes)
    (i : Nat) :
    i ≤ lineStop s i :=
  Nat.le_add_right _ _

/- Write a space over a star behind the blanks of a line. -/
def clearStar (stop i : Nat) : Buffer Unit := do
  let first ← passUp Ascii.isBlank stop i
  if ← standsAt stop first Ascii.star then
    clear first

/- Do so on each line. -/
def clearStars (limit i : Nat) : Buffer Unit := do
  if i < limit then
    let stop := lineStop (← get) i
    clearStar stop i
    clearStars limit (stop + 1)
termination_by limit - i
decreasing_by
  have := le_lineStop (by assumption) i
  omega

/- Take the marks of a block comment away. -/
def stripBlock : Buffer Unit := do
  let size := (← get).length
  let start ← passUp Ascii.isBlank size 0
  clearOpenMark size start
  clearEnd size
  clearStars size 0

/- The walk over a line does not leave it. -/
theorem run_clearStar
    {line cleared : Bytes}
    (hStar : StarCleared line cleared)
    (rest : Bytes)
    (hIndex : i = front.length) :
    (clearStar (front ++ line).length i).run (front ++ line ++ rest) =
      some ((), front ++ cleared ++ rest) := by
  unfold clearStar
  cases hStar with
  | star lead more hLead =>
      have hPass :=
        run_passUp hLead
          (fun b hHead => by rw [← Option.some.inj hHead]; rfl)
          rest hIndex
          (rfl : _ = (front ++ lead ++ Ascii.star :: more).length)
      have hFirst : i + lead.length = (front ++ lead).length := by
        simp [hIndex]
      have hClear :=
        run_clear (b := Ascii.star) (by decide) (more ++ rest) hFirst
      rw [← List.append_assoc, run_bind_of_run hPass,
        run_bind_of_run (run_standsAt Ascii.star (by simp)),
        if_pos (by simp [hIndex])]
      simpa using hClear
  | none lead more hLead hMore =>
      have hPass :=
        run_passUp hLead (fun b hHead => (hMore b hHead).1) rest hIndex
          rfl
      rw [← List.append_assoc, run_bind_of_run hPass,
        run_bind_of_run (run_standsAt Ascii.star (by simp))]
      cases more with
      | nil =>
          rw [if_neg (by simp [hIndex])]
          rfl
      | cons b more =>
          rw [if_neg (by simpa [hIndex] using (hMore b rfl).2)]
          rfl

/- A line ends at the next line feed, or where the text ends. -/
theorem lineStop_append
    {line : Bytes}
    (hLine : Ascii.lf ∉ line)
    (hRest : ∀ b ∈ rest.head?, b = Ascii.lf)
    (hIndex : i = front.length) :
    lineStop (front ++ line ++ rest) i = (front ++ line).length := by
  have hRun : (line ++ rest).takeWhile (· != Ascii.lf) = line := by
    rw [takeWhile_append_of_head, List.takeWhile_eq_self_iff]
    · intro b hByte
      exact bne_iff_ne.mpr (fun hSame => hLine (hSame ▸ hByte))
    · intro b hHead
      rw [hRest b hHead]
      rfl
  subst hIndex
  unfold lineStop
  rw [List.append_assoc, List.drop_left, hRun, List.length_append]

theorem run_clearStars_of_le
    {s : Bytes}
    (hOutside : limit ≤ i) :
    (clearStars limit i).run s = some ((), s) := by
  rw [clearStars, if_neg (Nat.not_lt.mpr hOutside)]
  rfl

/- One line is cleared, and the walk goes on behind its line feed. -/
theorem run_clearStars_line
    {line cleared : Bytes}
    (hStar : StarCleared line cleared)
    (hLine : Ascii.lf ∉ line)
    (hRest : ∀ b ∈ rest.head?, b = Ascii.lf)
    (hIndex : i = front.length)
    (hInside : i < limit) :
    (clearStars limit i).run (front ++ line ++ rest) =
      (clearStars limit ((front ++ line).length + 1)).run
        (front ++ cleared ++ rest) := by
  have hStop := lineStop_append hLine hRest hIndex
  rw [clearStars, if_pos hInside,
    run_bind_of_run (a := front ++ line ++ rest) rfl]
  dsimp only
  rw [hStop, run_bind_of_run (run_clearStar hStar rest hIndex)]

/- All lines are cleared one after the other. -/
theorem run_clearStars
    {lines cleared : List Bytes}
    (hStars : List.Forall₂ StarCleared lines cleared)
    (hLines : ∀ line ∈ lines, Ascii.lf ∉ line)
    (hIndex : i = front.length)
    (hLimit : limit = (front ++ Bytes.join [Ascii.lf] lines).length) :
    (clearStars limit i).run (front ++ Bytes.join [Ascii.lf] lines) =
      some ((), front ++ Bytes.join [Ascii.lf] cleared) := by
  induction hStars generalizing i front with
  | nil => exact run_clearStars_of_le (by simp [hIndex, hLimit, Bytes.join])
  | @cons line other lines others hStar hStars ih =>
      rw [List.forall_mem_cons] at hLines
      have hLength := (cleared_of_starCleared hStar).length_eq
      cases hStars with
      | nil =>
          -- The last line ends where the text does.
          rw [Bytes.join] at hLimit ⊢
          rw [Bytes.join]
          by_cases hNil : line = []
          · subst hNil
            rw [List.length_eq_zero_iff.mp hLength.symm]
            exact run_clearStars_of_le (by simp [hIndex, hLimit])
          · have hInside : i < limit := by
              simpa [hIndex, hLimit, List.length_pos_iff] using hNil
            have hNone : ∀ b ∈ ([] : Bytes).head?, b = Ascii.lf := by
              simp
            have hStep :=
              run_clearStars_line hStar hLines.1 hNone hIndex hInside
            rw [List.append_nil, List.append_nil] at hStep
            rw [hStep]
            exact run_clearStars_of_le (by simp [hLimit])
      | @cons next _ lines others hNext hStars =>
          -- A line feed stands between this line and the next one.
          have hInside : i < limit := by
            rw [hIndex, hLimit, Bytes.join]
            simp only [List.length_append, List.length_singleton]
            omega
          have hFeed :
              ∀ b ∈
                (Ascii.lf ::
                  Bytes.join [Ascii.lf] (next :: lines)).head?,
                b = Ascii.lf := by
            simp
          have hIndex' :
              (front ++ line).length + 1 =
                (front ++ other ++ [Ascii.lf]).length := by
            simp [hLength, Nat.add_assoc]
          have hLimit' :
              limit =
                (front ++ other ++ [Ascii.lf] ++
                  Bytes.join [Ascii.lf] (next :: lines)).length := by
            simp [hLimit, hLength, Bytes.join]
          have hStep :=
            run_clearStars_line hStar hLines.1 hFeed hIndex hInside
          have hOthers := ih hLines.2 hIndex' hLimit'
          simp only [Bytes.join, List.append_assoc,
            List.singleton_append] at hStep hOthers ⊢
          rw [hStep, hOthers]

/- The parts of a block comment, and then its stars, are cleared. -/
theorem run_stripBlock
    {s t : Bytes}
    (parts : BlockParts s)
    (hStars :
      List.Forall₂ StarCleared (Bytes.splitLines parts.cleared)
        (Bytes.splitLines t)) :
    stripBlock.run s = some ((), t) := by
  have hLength := (cleared_blockParts parts).length_eq
  obtain
    ⟨lead, opening, body, closing, trail, rfl, hLead, hEnds, hOpen,
      hClose, hTrail, hLast⟩ := parts
  have hFront : ∀ b ∈ lead ++ spaces opening, Ascii.isBlank b = true :=
    List.forall_mem_append.mpr
      ⟨hLead, fun _ hByte => isBlank_of_mem_spaces hByte⟩
  have hLimit :
      (lead ++ opening ++ body ++ closing ++ trail).length =
        (lead ++ spaces opening ++ body ++ closing ++ trail).length := by
    simp
  have hIndex : 0 = ([] : Bytes).length := rfl
  have hPass := run_passUp_start hLead hEnds
  have hOpened := run_clearOpenMark lead hOpen rfl rfl
  have hClosed := run_clearEnd hFront hClose hTrail hLast hLimit
  have hStarred :=
    run_clearStars hStars (Bytes.lf_not_mem_of_mem_splitLines _) hIndex
      (by rw [Bytes.join_splitLines, List.nil_append, ← hLength])
  simp only [Bytes.join_splitLines, List.nil_append, BlockParts.cleared,
    List.append_assoc] at hPass hOpened hClosed hStarred
  unfold stripBlock
  simp only [List.append_assoc]
  rw [run_bind_of_run
      (a := lead ++ (opening ++ (body ++ (closing ++ trail)))) rfl,
    run_bind_of_run hPass, run_bind_of_run hOpened,
    run_bind_of_run hClosed, hStarred]

end Buffer

------------------------------------------------------------
-- Comments Without Their Marks
------------------------------------------------------------

/-
  Taking the marks of a comment away keeps its length, its line
  ends and all bytes that are in no mark.  Of a line comment only
  the mark and the spaces and tabs behind it are cleared.  Of a
  block comment only its two marks are, and on each line at most
  one star.  In place it is done without leaving the text.
-/
theorem Marker.strip_clears_marks_only
    (s : Bytes) :
    (Preserves lineBytes s (stripLine s) ∧
      (∃ parts : LineParts s, stripLine s = parts.cleared) ∧
        Buffer.stripLine.run s = some ((), stripLine s)) ∧
    (Preserves blockBytes s (stripBlock s) ∧
      (∃ parts : BlockParts s,
        List.Forall₂ StarCleared (Bytes.splitLines parts.cleared)
          (Bytes.splitLines (stripBlock s))) ∧
        Buffer.stripBlock.run s = some ((), stripBlock s)) := by
  constructor
  · rcases exists_lineParts s with ⟨parts, hParts⟩
    refine ⟨?_, ⟨parts, hParts⟩, ?_⟩
    · rw [hParts]
      exact
        preserves_of_cleared (by decide) (by decide)
          (cleared_lineParts parts)
    · rw [hParts]
      exact Buffer.run_stripLine parts
  · rcases exists_lines_stripBlock s with ⟨parts, hStars⟩
    refine ⟨?_, ⟨parts, hStars⟩, Buffer.run_stripBlock parts hStars⟩
    exact
      preserves_of_cleared (by decide) (by decide)
        (cleared_trans (cleared_blockParts parts)
          (cleared_of_lines hStars))

/- The star that belongs to the first mark is not there for another. -/
example :
    Marker.stripBlock [Ascii.slash, Ascii.star, Ascii.slash] =
      [Ascii.space, Ascii.space, Ascii.slash] := by
  decide

end Marginalia

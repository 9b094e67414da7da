import Mathlib.Data.List.Basic
import Marginalia.Comment.Extract

/-
  This file proves what the text of a comment is like: it is one
  line, it is not empty, and no blanks stand at its two ends.

  Taking marks away puts spaces in their place and adds no other
  byte, so a text taken out of lines without line feeds has none
  either.  Each line is trimmed before the lines are joined, and
  so are the two ends of what comes of it.

  Key definitions include:
    * `Bytes.Trimmed`
  The main statements are:
    * `Bytes.trimmed_trim`
    * `Extract.lf_not_mem_strip`
    * `Extract.trimmed_joinLines`
    * `Extract.lf_not_mem_joinLines`
-/

namespace Marginalia

------------------------------------------------------------
-- Lines and Blanks
------------------------------------------------------------

namespace Bytes

/- No line feed is left when a text is split at line feeds. -/
theorem lf_not_mem_of_mem_splitLines
    (s : Bytes) :
    ∀ line ∈ splitLines s, Ascii.lf ∉ line := by
  induction s with
  | nil =>
      intro line hLine
      rw [splitLines, List.mem_singleton] at hLine
      rw [hLine]
      exact List.not_mem_nil
  | cons b rest ih =>
      intro line hLine
      unfold splitLines at hLine
      split at hLine
      · rcases List.mem_cons.mp hLine with rfl | hLater
        · exact List.not_mem_nil
        · exact ih line hLater
      · next hOther =>
          have hNew : Ascii.lf ∉ [b] := by
            rw [List.mem_singleton]
            exact fun hSame => hOther hSame.symm
          split at hLine
          · rw [List.mem_singleton.mp hLine]
            exact hNew
          · next first lines hSplit =>
              rw [hSplit] at ih
              rcases List.mem_cons.mp hLine with rfl | hLater
              · rw [List.mem_cons]
                rintro (hSame | hIn)
                · exact hOther hSame.symm
                · exact ih first List.mem_cons_self hIn
              · exact ih line (List.mem_cons_of_mem _ hLater)

/- A byte of a joined text stands in a piece or in the separator. -/
theorem mem_join
    {b : UInt8}
    {separator : Bytes} :
    ∀ pieces : List Bytes,
      b ∈ join separator pieces →
        b ∈ separator ∨ ∃ piece ∈ pieces, b ∈ piece
| [], hByte => by cases hByte
| [piece], hByte => Or.inr ⟨piece, List.mem_cons_self, hByte⟩
| piece :: next :: pieces, hByte => by
    rcases List.mem_append.mp hByte with hFront | hRest
    · rcases List.mem_append.mp hFront with hPiece | hSeparator
      · exact Or.inr ⟨piece, List.mem_cons_self, hPiece⟩
      · exact Or.inl hSeparator
    · rcases mem_join (next :: pieces) hRest with
        hSeparator | ⟨other, hOther, hIn⟩
      · exact Or.inl hSeparator
      · exact Or.inr ⟨other, List.mem_cons_of_mem _ hOther, hIn⟩

/- No blank stands at either end of the text. -/
structure Trimmed (s : Bytes) : Prop where
  head : ∀ b ∈ s.head?, Ascii.isBlank b = false
  last : ∀ b ∈ s.getLast?, Ascii.isBlank b = false

/- What is left once a text is dropped from begins with no blank. -/
theorem head?_dropWhile_isBlank
    (s : Bytes) :
    ∀ b ∈ (s.dropWhile Ascii.isBlank).head?, Ascii.isBlank b = false := by
  intro b hHead
  have hNot := List.head?_dropWhile_not Ascii.isBlank s
  rw [hHead] at hNot
  simpa using hNot

/- A byte of a trimmed text is a byte of the text. -/
theorem mem_of_mem_trim
    {b : UInt8}
    {s : Bytes}
    (hByte : b ∈ trim s) :
    b ∈ s := by
  unfold trim trimEnd at hByte
  rw [List.mem_reverse] at hByte
  have hEnd := (List.dropWhile_sublist _).subset hByte
  rw [List.mem_reverse] at hEnd
  exact (List.dropWhile_sublist _).subset hEnd

/- No blank is left at the ends of a trimmed text. -/
theorem trimmed_trim
    (s : Bytes) :
    Trimmed (trim s) where
  head := by
    intro b hHead
    unfold trim trimEnd at hHead
    rw [List.head?_reverse] at hHead
    -- The last byte that is kept is the last one that there was.
    have hSplit :
        ((s.dropWhile Ascii.isBlank).reverse).getLast? = some b := by
      rw [← List.takeWhile_append_dropWhile
        (p := Ascii.isBlank) (l := (s.dropWhile Ascii.isBlank).reverse),
        List.getLast?_append, hHead]
      rfl
    rw [List.getLast?_reverse] at hSplit
    exact head?_dropWhile_isBlank s b hSplit
  last := by
    intro b hLast
    unfold trim trimEnd at hLast
    rw [List.getLast?_reverse] at hLast
    exact head?_dropWhile_isBlank _ b hLast

theorem trimmed_nil : Trimmed [] where
  head := by
    intro b hHead
    cases hHead
  last := by
    intro b hLast
    cases hLast

/- Trimmed texts that are not empty are joined to such a text. -/
theorem trimmed_join
    {separator : Bytes} :
    ∀ pieces : List Bytes,
      (∀ piece ∈ pieces, Trimmed piece ∧ piece ≠ []) →
        Trimmed (join separator pieces) ∧
          (pieces ≠ [] → join separator pieces ≠ [])
| [], _ => ⟨trimmed_nil, fun hSome => absurd rfl hSome⟩
| [piece], hPieces =>
    ⟨(hPieces piece List.mem_cons_self).1,
      fun _ => (hPieces piece List.mem_cons_self).2⟩
| piece :: next :: pieces, hPieces => by
    rcases hPieces piece List.mem_cons_self with ⟨hTrimmed, hSome⟩
    rcases
        trimmed_join (next :: pieces)
          (fun other hOther =>
            hPieces other (List.mem_cons_of_mem _ hOther)) with
      ⟨hRest, hRestSome⟩
    have hOthers := hRestSome (List.cons_ne_nil _ _)
    refine ⟨⟨?_, ?_⟩, ?_⟩
    · intro b hHead
      apply hTrimmed.head b
      cases piece with
      | nil => exact absurd rfl hSome
      | cons c rest => exact hHead
    · intro b hLast
      apply hRest.last b
      unfold join at hLast
      rw [List.getLast?_append] at hLast
      cases hEnd : (join separator (next :: pieces)).getLast? with
      | none => exact absurd (List.getLast?_eq_none_iff.mp hEnd) hOthers
      | some c =>
          rw [hEnd] at hLast
          exact hLast
    · intro _ hNil
      unfold join at hNil
      rw [List.append_eq_nil_iff] at hNil
      exact hOthers hNil.2

end Bytes

------------------------------------------------------------
-- Marks
------------------------------------------------------------

namespace Marker

variable {b : UInt8}
variable {s : Bytes}

/- Flattening tabs adds nothing but spaces. -/
theorem mem_flattenTabs
    (hByte : b ∈ flattenTabs s) :
    b = Ascii.space ∨ b ∈ s := by
  induction s with
  | nil => exact Or.inr hByte
  | cons c rest ih =>
      unfold flattenTabs at hByte
      split at hByte
      · rcases List.mem_cons.mp hByte with hSame | hLater
        · exact Or.inl hSame
        · exact (ih hLater).imp_right (List.mem_cons_of_mem c)
      · exact Or.inr hByte

/- Taking the mark of a line comment away adds nothing but spaces. -/
theorem mem_stripLine
    (hByte : b ∈ stripLine s) :
    b = Ascii.space ∨ b ∈ s := by
  unfold stripLine at hByte
  dsimp only at hByte
  rcases List.mem_append.mp hByte with hFront | hRest
  · rcases List.mem_append.mp hFront with hLead | hMark
    · exact Or.inr ((List.takeWhile_sublist _).subset hLead)
    · exact Or.inl (List.eq_of_mem_replicate hMark)
  · rcases mem_flattenTabs hRest with hSpace | hIn
    · exact Or.inl hSpace
    · exact
        Or.inr
          ((List.dropWhile_sublist _).subset (List.mem_of_mem_drop hIn))

/- Taking a star away adds nothing but a space. -/
theorem mem_stripStar
    (hByte : b ∈ stripStar s) :
    b = Ascii.space ∨ b ∈ s := by
  induction s with
  | nil => exact Or.inr hByte
  | cons c rest ih =>
      unfold stripStar at hByte
      split at hByte
      · rcases List.mem_cons.mp hByte with hSame | hLater
        · exact Or.inr (List.mem_cons.mpr (Or.inl hSame))
        · exact (ih hLater).imp_right (List.mem_cons_of_mem c)
      · split at hByte
        · rcases List.mem_cons.mp hByte with hSame | hLater
          · exact Or.inl hSame
          · exact Or.inr (List.mem_cons_of_mem c hLater)
        · exact Or.inr hByte

/- Taking the stars at the end away adds nothing. -/
theorem mem_stripTrailingStars
    (hByte : b ∈ stripTrailingStars s) :
    b ∈ s := by
  unfold stripTrailingStars at hByte
  dsimp only at hByte
  split at hByte
  · rw [List.mem_reverse, List.mem_append] at hByte
    rw [← List.mem_reverse]
    rcases hByte with hTrail | hRest
    · exact (List.takeWhile_sublist _).subset hTrail
    · exact
        (List.dropWhile_sublist _).subset
          ((List.dropWhile_sublist _).subset hRest)
  · exact hByte

end Marker

------------------------------------------------------------
-- Texts
------------------------------------------------------------

namespace Extract

/- There is no line feed in what a span holds of a line. -/
structure OneLine (part : LinePart) : Prop where
  raw : Ascii.lf ∉ part.raw
  content : Ascii.lf ∉ part.content

/- A byte of a slice is a byte of the text. -/
theorem mem_of_mem_slice
    {b : UInt8}
    {s : Bytes}
    {start stop : Nat}
    (hByte : b ∈ s.slice start stop) :
    b ∈ s :=
  List.mem_of_mem_drop (List.mem_of_mem_take hByte)

/- A part of a line without line feeds has none. -/
theorem oneLine_part
    {text : Bytes}
    (span : CommentSpan)
    (line : Nat)
    (hText : Ascii.lf ∉ text)
    (tokens : List Token) :
    OneLine (part span line text tokens) where
  raw := fun hByte => hText (mem_of_mem_slice hByte)
  content := by
    intro hByte
    rcases List.mem_flatMap.mp hByte with ⟨token, _, hIn⟩
    unfold tokenContent at hIn
    dsimp only at hIn
    split at hIn
    · have hSpace := List.eq_of_mem_replicate hIn
      cases hSpace
    · exact hText (mem_of_mem_slice hIn)

/- The parts of a span have no line feeds if no line has one. -/
theorem oneLine_parts
    {lines : Array Bytes}
    (tokens : Nat → List Token)
    (span : CommentSpan)
    (hLines : ∀ line : Nat, Ascii.lf ∉ lines.getD line [])
    (remaining : Nat) :
    ∀ line,
      ∀ p ∈ (parts lines span remaining line).eval tokens, OneLine p := by
  induction remaining with
  | zero =>
      intro line p hPart
      cases hPart
  | succ remaining ih =>
      intro line p hPart
      simp only [parts, TokenQuery.eval_bind, TokenQuery.eval_tokensOf,
        TokenQuery.eval_pure] at hPart
      rcases List.mem_cons.mp hPart with rfl | hLater
      · exact oneLine_part span line (hLines line) _
      · exact ih (line + 1) p hLater

/- Changing the last line changes no other. -/
theorem mem_onLast
    {f : Bytes → Bytes}
    {line : Bytes} :
    ∀ lines : List Bytes,
      line ∈ onLast f lines →
        line ∈ lines ∨ ∃ other ∈ lines, line = f other
| [], hLine => by cases hLine
| [other], hLine =>
    Or.inr ⟨other, List.mem_cons_self, List.mem_singleton.mp hLine⟩
| first :: next :: lines, hLine => by
    rcases List.mem_cons.mp hLine with rfl | hLater
    · exact Or.inl List.mem_cons_self
    · rcases mem_onLast (next :: lines) hLater with hIn | ⟨other, hIn, hSame⟩
      · exact Or.inl (List.mem_cons_of_mem _ hIn)
      · exact Or.inr ⟨other, List.mem_cons_of_mem _ hIn, hSame⟩

/- The lines of a comment without marks have no line feeds. -/
theorem lf_not_mem_strip
    {parts : List LinePart}
    (scope : Scope)
    (hParts : ∀ p ∈ parts, OneLine p) :
    ∀ line ∈ strip scope parts, Ascii.lf ∉ line := by
  have hSpace : Ascii.lf ≠ Ascii.space := by decide
  intro line hLine hByte
  unfold strip at hLine
  dsimp only at hLine
  split at hLine
  · split at hLine
    · rcases List.mem_map.mp hLine with ⟨p, hPart, rfl⟩
      exact (hParts p hPart).content hByte
    · have hStar :
          ∀ other ∈ (parts.map LinePart.content).map Marker.stripStar,
            Ascii.lf ∉ other := by
        intro other hOther hIn
        rw [List.map_map] at hOther
        rcases List.mem_map.mp hOther with ⟨p, hPart, rfl⟩
        rcases Marker.mem_stripStar hIn with hSame | hContent
        · exact hSpace hSame
        · exact (hParts p hPart).content hContent
      rcases mem_onLast _ hLine with hIn | ⟨other, hIn, rfl⟩
      · exact hStar line hIn hByte
      · exact hStar other hIn (Marker.mem_stripTrailingStars hByte)
  · split at hLine
    · rw [List.map_map] at hLine
      rcases List.mem_map.mp hLine with ⟨p, hPart, rfl⟩
      rcases Marker.mem_stripLine hByte with hSame | hRaw
      · exact hSpace hSame
      · exact (hParts p hPart).raw hRaw
    · exact Bytes.lf_not_mem_of_mem_splitLines _ line hLine hByte

/- The lines that are joined are trimmed and not empty. -/
theorem trimmed_joinLines
    (lines : List Bytes) :
    (joinLines lines).Trimmed := by
  refine (Bytes.trimmed_join _ ?_).1
  intro line hLine
  rcases List.mem_filter.mp hLine with ⟨hMember, hSome⟩
  rcases List.mem_map.mp hMember with ⟨other, _, rfl⟩
  refine ⟨Bytes.trimmed_trim other, ?_⟩
  intro hNil
  rw [hNil] at hSome
  cases hSome

/- Joining lines without line feeds makes one line. -/
theorem lf_not_mem_joinLines
    {lines : List Bytes}
    (hLines : ∀ line ∈ lines, Ascii.lf ∉ line) :
    Ascii.lf ∉ joinLines lines := by
  intro hByte
  rcases Bytes.mem_join _ hByte with hSpace | ⟨line, hLine, hIn⟩
  · cases List.mem_singleton.mp hSpace
  · rcases List.mem_map.mp (List.mem_filter.mp hLine).1 with
      ⟨other, hOther, rfl⟩
    exact hLines other hOther (Bytes.mem_of_mem_trim hIn)

/- The text of a span is one trimmed line that is not empty. -/
theorem properties_of_text?
    {lines : Array Bytes}
    {tokens : Nat → List Token}
    {span : CommentSpan}
    {scope : Scope}
    {text : Bytes}
    (hLines : ∀ line : Nat, Ascii.lf ∉ lines.getD line [])
    (hText : (text? lines span scope).eval tokens = some text) :
    text ≠ [] ∧ Ascii.lf ∉ text ∧ text.Trimmed := by
  simp only [text?, TokenQuery.eval_bind, TokenQuery.eval_pure] at hText
  split at hText
  · cases hText
  · next hSome =>
      cases hText
      refine ⟨?_, ?_, trimmed_joinLines _⟩
      · simpa using hSome
      · exact
          lf_not_mem_joinLines
            (lf_not_mem_strip scope
              (oneLine_parts tokens span hLines _ _))

end Extract

end Marginalia

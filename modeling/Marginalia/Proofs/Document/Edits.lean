import Mathlib.Data.List.Forall2
import Marginalia.Proofs.Document.Offsets

/-
  This file proves what an edit does to a document, if the ends of
  its range are positions of characters.

  The position of a place in the text counts the line feeds before
  it, and the units behind the last of them.  Such a position leads
  back to its place, so an edit replaces what is between the two
  places, whichever of them comes first in the range.  The lines
  before the first place and behind the second one stay.

  Key definitions include:
    * `Document.positionAt`
    * `Document.IsLineOf`
  The main statements are:
    * `Document.offsetOf_positionAt`
    * `Document.applyChange_between`
-/

namespace Marginalia

------------------------------------------------------------
-- Positions of Characters
------------------------------------------------------------

namespace Utf16

/-
  Where a character of a text begins, one begins in its line too:
  neither the line feed before the line nor the one behind it
  belongs to a longer piece.
-/
theorem isEdge_lastLine
    {x y first : Bytes}
    {rest : List Bytes}
    (hEdge : IsEdge (pieces (x ++ y)) x.length)
    (hLines : Bytes.splitLines y = first :: rest) :
    IsEdge (pieces (Bytes.lastLine x ++ first))
      (Bytes.lastLine x).length := by
  have hFeed := lf_alone
  have hBegun :
      IsEdge (pieces (Bytes.lastLine x ++ y))
        (Bytes.lastLine x).length := by
    rcases Bytes.eq_lastLine_or_exists x with hAll | ⟨before, hBefore⟩
    · rw [← hAll]
      exact hEdge
    · have hPieces :
          pieces (x ++ y) =
            (pieces before ++ [[Ascii.lf]]) ++
              pieces (Bytes.lastLine x ++ y) := by
        conv => lhs; rw [hBefore]
        rw [List.append_assoc, List.cons_append,
          pieces_append_cons hFeed.1 hFeed.2, List.append_assoc]
        rfl
      have hLength :
          x.length =
            (pieces before ++ [[Ascii.lf]]).flatten.length +
              (Bytes.lastLine x).length := by
        conv => lhs; rw [hBefore]
        rw [List.flatten_append, flatten_pieces, List.length_append,
          List.length_append, List.length_cons, Nat.add_assoc,
          Nat.add_comm (Bytes.lastLine x).length]
        rfl
      rw [hPieces, hLength] at hEdge
      exact (isEdge_append_right _ _ _).mp hEdge
  rcases Bytes.exists_of_splitLines_cons y hLines with
    ⟨behind, rfl, rfl | ⟨more, rfl⟩⟩
  · rw [List.append_nil] at hBegun
    exact hBegun
  · rw [← List.append_assoc, pieces_append_cons hFeed.1 hFeed.2]
      at hBegun
    refine (isEdge_append_left _ _ ?_).mp hBegun
    rw [flatten_pieces, List.length_append]
    exact Nat.le_add_right _ _

end Utf16

namespace Document

/-
  The position of an offset: the line feeds before it, and the
  UTF-16 units behind the last of them.
-/
def positionAt (text : Bytes) (offset : Nat) : Position :=
  ⟨(text.take offset).count Ascii.lf,
    Utf16.length (Bytes.lastLine (text.take offset))⟩

/- The position of a character leads back to it. -/
theorem offsetOf_positionAt
    {text : Bytes}
    {offset : Nat}
    (hEdge : Utf16.IsEdge (Utf16.pieces text) offset) :
    offsetOf text (positionAt text offset) = offset := by
  have hLe := Utf16.le_of_isEdge _ hEdge
  rw [Utf16.flatten_pieces] at hLe
  have hText := List.take_append_drop offset text
  have hLength : (text.take offset).length = offset :=
    List.length_take_of_le hLe
  unfold positionAt
  generalize text.take offset = x at hText hLength ⊢
  generalize text.drop offset = y at hText
  subst hText
  subst hLength
  rcases List.exists_cons_of_ne_nil (Bytes.splitLines_ne_nil y) with
    ⟨first, rest, hLines⟩
  have hColumn :
      Utf16.toByteColumn (Bytes.lastLine x ++ first)
          (Utf16.length (Bytes.lastLine x)) =
        (Bytes.lastLine x).length := by
    rw [Utf16.toByteColumn_append (Utf16.isEdge_lastLine hEdge hLines),
      if_pos (Int.le_refl _),
      Utf16.toByteColumn_of_length_le (Int.le_refl _)]
  have hOffset :=
    offsetOf_append x hLines (Utf16.length (Bytes.lastLine x))
  rw [hColumn] at hOffset
  exact Nat.add_right_cancel hOffset

------------------------------------------------------------
-- Lines of an Edited Text
------------------------------------------------------------

/- A line is without the one carriage return that it may end with. -/
def IsLineOf (line whole : Bytes) : Prop :=
  whole = line ++ [Ascii.cr] ∨
    (whole = line ∧ line.getLast? ≠ some Ascii.cr)

/- Dropping the carriage return makes the line. -/
theorem isLineOf_dropReturn
    (whole : Bytes) :
    IsLineOf (dropReturn whole) whole := by
  by_cases hReturn : whole.getLast? = some Ascii.cr
  · left
    rw [dropReturn, if_pos hReturn]
    exact (List.dropLast_append_getLast? _ hReturn).symm
  · right
    rw [dropReturn, if_neg hReturn]
    exact ⟨rfl, hReturn⟩

/- The lines of a document are those of its text. -/
theorem forall₂_lines
    (document : Document) :
    List.Forall₂ IsLineOf document.lines
      (Bytes.splitLines document.text) := by
  unfold lines
  rw [List.forall₂_map_left_iff]
  exact List.forall₂_same.mpr (fun whole _ => isLineOf_dropReturn whole)

/- The lines that end in the first part of a text. -/
theorem take_lines_append
    {x y z : Bytes}
    {document other : Document}
    (hText : document.text = x ++ y)
    (hOther : other.text = x ++ z) :
    document.lines.take (x.count Ascii.lf) =
      other.lines.take (x.count Ascii.lf) := by
  have hBefore :
      ∃ before : List Bytes,
        ∀ y,
          (Bytes.splitLines (x ++ y)).take (x.count Ascii.lf) =
            before := by
    rcases Bytes.exists_linesBefore x with ⟨before, hCount, _, hAppend⟩
    refine ⟨before, ?_⟩
    intro y
    rcases List.exists_cons_of_ne_nil (Bytes.splitLines_ne_nil y) with
      ⟨first, rest, hLines⟩
    rw [hAppend hLines, List.take_left' hCount]
  rcases hBefore with ⟨before, hTake⟩
  rw [lines, lines, ← List.map_take, ← List.map_take, hText, hOther,
    hTake, hTake]

/- The lines that begin in the second part of a text. -/
theorem drop_lines_append
    {x y z : Bytes}
    {document other : Document}
    (hText : document.text = x ++ z)
    (hOther : other.text = y ++ z) :
    document.lines.drop (x.count Ascii.lf + 1) =
      other.lines.drop (y.count Ascii.lf + 1) := by
  have hBehind :
      ∃ behind : List Bytes,
        ∀ x,
          (Bytes.splitLines (x ++ z)).drop (x.count Ascii.lf + 1) =
            behind := by
    rcases List.exists_cons_of_ne_nil (Bytes.splitLines_ne_nil z) with
      ⟨first, rest, hLines⟩
    refine ⟨rest, ?_⟩
    intro x
    rcases Bytes.exists_linesBefore x with ⟨before, hCount, _, hAppend⟩
    rw [hAppend hLines, ← hCount, List.drop_append]
    simp
  rcases hBehind with ⟨behind, hDrop⟩
  rw [lines, lines, ← List.map_drop, ← List.map_drop, hText, hOther,
    hDrop, hDrop]

------------------------------------------------------------
-- Edits
------------------------------------------------------------

/-
  An edit between the positions of two characters, in either order,
  puts its text in the place of what is between them.  The lines are
  those of the new text.  The lines before the one of the first
  position stay, those behind the one of the second position come
  after the edit as they were, and so do the names of the document.
-/
theorem applyChange_between
    {document : Document}
    {a b : Nat}
    {range : Range}
    (hFirst : Utf16.IsEdge (Utf16.pieces document.text) a)
    (hLast : Utf16.IsEdge (Utf16.pieces document.text) b)
    (hLe : a ≤ b)
    (hRange :
      range =
          ⟨positionAt document.text a, positionAt document.text b⟩ ∨
        range =
          ⟨positionAt document.text b, positionAt document.text a⟩)
    (text : Bytes)
    (version : Int) :
    let changed := document.applyChange range text version
    let firstLine := (document.text.take a).count Ascii.lf
    let lastLine := (document.text.take b).count Ascii.lf
    changed.text =
        document.text.take a ++ text ++ document.text.drop b ∧
      (∃ whole,
        Bytes.join [Ascii.lf] whole = changed.text ∧
          (∀ line ∈ whole, Ascii.lf ∉ line) ∧
          List.Forall₂ IsLineOf changed.lines whole) ∧
      changed.lines.length = changed.text.count Ascii.lf + 1 ∧
      changed.lines.take firstLine = document.lines.take firstLine ∧
      changed.lines.drop (firstLine + text.count Ascii.lf + 1) =
        document.lines.drop (lastLine + 1) ∧
      changed.uri = document.uri ∧
      changed.languageId = document.languageId := by
  intro changed firstLine lastLine
  have hText :
      changed.text =
        document.text.take a ++ text ++ document.text.drop b := by
    change
      document.text.take (min (offsetOf _ range.start) _) ++ text ++
          document.text.drop (max (offsetOf _ range.start) _) =
        _
    rcases hRange with rfl | rfl
    · rw [offsetOf_positionAt hFirst, offsetOf_positionAt hLast,
        Nat.min_eq_left hLe, Nat.max_eq_right hLe]
    · rw [offsetOf_positionAt hFirst, offsetOf_positionAt hLast,
        Nat.min_eq_right hLe, Nat.max_eq_left hLe]
  refine ⟨hText, ?_, ?_, ?_, ?_, rfl, rfl⟩
  · exact
      ⟨Bytes.splitLines changed.text, Bytes.join_splitLines _,
        Bytes.lf_not_mem_of_mem_splitLines _, forall₂_lines changed⟩
  · rw [lines, List.length_map, Bytes.length_splitLines]
  · refine
      take_lines_append (y := text ++ document.text.drop b)
        (z := document.text.drop a) ?_ ?_
    · rw [hText, List.append_assoc]
    · exact (List.take_append_drop a document.text).symm
  · have hDrop :=
      drop_lines_append hText (List.take_append_drop b _).symm
    rw [List.count_append] at hDrop
    exact hDrop

/-
  A pair of surrogates and half of a line end are replaced, with the
  range given from its end to its start.
-/
theorem applyChange_between_reversed :
    let document : Document :=
      ⟨utf8 "file:///a", utf8 "c", 1, utf8 "a\r\né😀b\r\nc"⟩
    let range : Range := ⟨⟨1, 4⟩, ⟨1, 1⟩⟩
    (document.applyChange range (utf8 "x\ny") 2).lines =
        [utf8 "a", utf8 "éx", utf8 "y", utf8 "c"] ∧
      (document.applyChange range (utf8 "x\ny") 2).text =
        utf8 "a\r\néx\ny\r\nc" := by
  intro document range
  have hFirst : Utf16.IsEdge (Utf16.pieces document.text) 5 := by decide
  have hLast : Utf16.IsEdge (Utf16.pieces document.text) 10 := by decide
  have hRange :
      range =
        ⟨positionAt document.text 10, positionAt document.text 5⟩ := by
    decide
  refine ⟨by decide, ?_⟩
  rw [(applyChange_between hFirst hLast (by decide) (Or.inr hRange)
    (utf8 "x\ny") 2).1]
  decide

end Document

end Marginalia

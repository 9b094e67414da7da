import Marginalia.Proofs.Token.Pieces

/-
  This file proves how a match is coloured, column by column.

  A column of a match has the scopes of the whole match and, in
  order, the names of the groups that hold it.  The match is cut
  where the groups begin and end, so a group that holds one column
  of a piece holds the piece; groups may lie in each other,
  overlap or reach beyond the match.

  The tokens of a line are looked at through their columns.
  Whether a part becomes a token or lengthens one, its columns
  are added to those before it.

  Key definitions include:
    * `Tokens.columns`
    * `NamedSpan.Before`
    * `Captures.spansAt`, `Captures.Colours`
    * `Captures.columnsFrom`
  The main statements are:
    * `Tokens.columns_push`
    * `Captures.columns_emitPieces`
    * `Captures.colours_spansAt`
    * `Captures.columns_emit`
-/

namespace Marginalia

------------------------------------------------------------
-- Columns
------------------------------------------------------------

/- The columns of a part of a line, all with the same scopes. -/
def Token.columns (token : Token) : List (Nat × List Scope) :=
  (List.range' token.start (token.stop - token.start)).map
    (fun column => (column, token.scopes))

/- How a token begins: its start, and its scopes. -/
def Token.opening (token : Token) : Nat × List Scope :=
  (token.start, token.scopes)

namespace Tokens

/- The columns of tokens, which are in reverse, from left to right. -/
def columns (tokens : List Token) : List (Nat × List Scope) :=
  tokens.reverse.flatMap Token.columns

/- The last token, if there is one, does not stop before its start. -/
def IsProper (tokens : List Token) : Prop :=
  ∀ last ∈ tokens.head?, last.start ≤ last.stop

variable {tokens : List Token}
variable {start stop : Nat}

theorem columns_cons
    (token : Token)
    (before : List Token) :
    columns (token :: before) = columns before ++ token.columns := by
  simp [columns]

/- The columns from `a` to `c` are those to `b` and those from there. -/
theorem range_split
    {a b c : Nat}
    (hFirst : a ≤ b)
    (hSecond : b ≤ c) :
    List.range' a (c - a) =
      List.range' a (b - a) ++ List.range' b (c - b) := by
  have hAppend :=
    List.range'_append_1 (s := a) (m := b - a) (n := c - b)
  rw [Nat.add_sub_cancel' hFirst] at hAppend
  rw [hAppend]
  congr 1
  omega

/- The columns of a token that goes on where it stops. -/
theorem columns_lengthen
    (token : Token)
    (hProper : token.start ≤ token.stop)
    (hStop : token.stop ≤ stop) :
    Token.columns { token with stop := stop } =
      token.columns ++
        Token.columns ⟨token.stop, stop, token.scopes⟩ := by
  unfold Token.columns
  dsimp only
  rw [← List.map_append]
  congr 1
  exact range_split hProper hStop

/- A part that is pushed adds its columns, and no others. -/
theorem columns_push
    (hProper : IsProper tokens)
    (start stop : Nat)
    (scopes : List Scope) :
    columns (push tokens start stop scopes) =
      columns tokens ++ Token.columns ⟨start, stop, scopes⟩ := by
  unfold push
  split
  · next hEmpty =>
      have hNone : stop - start = 0 := by omega
      simp [Token.columns, hNone]
  · next hWide =>
      cases tokens with
      | nil => rw [columns_cons]
      | cons last before =>
          dsimp only
          split
          · next hSame =>
              rcases hSame with ⟨rfl, rfl⟩
              rw [columns_cons, columns_cons,
                columns_lengthen last (hProper last rfl) (by omega),
                List.append_assoc]
          · rw [columns_cons]

/- After a push the last token is proper too. -/
theorem isProper_push
    (hProper : IsProper tokens)
    (start stop : Nat)
    (scopes : List Scope) :
    IsProper (push tokens start stop scopes) := by
  unfold push
  split
  · exact hProper
  · next hWide =>
      intro last hLast
      cases tokens with
      | nil =>
          cases hLast
          dsimp only
          omega
      | cons old before =>
          have hOld := hProper old rfl
          dsimp only at hLast
          split at hLast
          · next hSame =>
              cases hLast
              dsimp only
              omega
          · cases hLast
            dsimp only
            omega

/- A push changes nothing of the tokens before but the last stop. -/
theorem opening_push
    (start stop : Nat)
    (scopes : List Scope) :
    tokens.map Token.opening <:+
      (push tokens start stop scopes).map Token.opening := by
  unfold push
  split
  · exact List.suffix_refl _
  · cases tokens with
    | nil => exact List.nil_suffix
    | cons last before =>
        dsimp only
        split
        · exact List.suffix_refl _
        · exact List.suffix_cons _ _

end Tokens

------------------------------------------------------------
-- The Order of Spans
------------------------------------------------------------

namespace NamedSpan

/-
  A span goes before another one: it starts earlier, or where the
  other starts and is longer, or it is the same part of the line
  and its group has the lower number.
-/
def Before (a b : NamedSpan) : Prop :=
  a.start < b.start ∨
    a.start = b.start ∧
      (b.stop < a.stop ∨ a.stop = b.stop ∧ a.number < b.number)

theorem precedes_iff
    {a b : NamedSpan} :
    a.precedes b = true ↔ a.Before b := by
  unfold precedes Before
  split
  · next hStart => simp; omega
  · split
    · next hStart hStop => simp; omega
    · next hStart hStop => simp; omega

theorem before_trans
    {a b c : NamedSpan}
    (hFirst : a.Before b)
    (hSecond : b.Before c) :
    a.Before c := by
  unfold Before at hFirst hSecond ⊢
  omega

/- Of the spans of two groups, one goes before the other. -/
theorem before_of_not_before
    {a b : NamedSpan}
    (hNumbers : a.number ≠ b.number)
    (hNot : ¬a.Before b) :
    b.Before a := by
  unfold Before at hNot ⊢
  omega

/- A span that is put in its place keeps the order. -/
theorem pairwise_insert
    {span : NamedSpan}
    (spans : List NamedSpan) :
    spans.Pairwise Before →
      (∀ other ∈ spans, span.number ≠ other.number) →
        (insert span spans).Pairwise Before := by
  induction spans with
  | nil =>
      intro _ _
      exact List.pairwise_singleton _ _
  | cons first rest ih =>
      intro hOrder hNumbers
      rcases List.pairwise_cons.mp hOrder with ⟨hFirst, hRest⟩
      unfold insert
      split
      · next hPrecedes =>
          have hHere := precedes_iff.mp hPrecedes
          refine List.pairwise_cons.mpr ⟨?_, hOrder⟩
          intro other hOther
          rcases List.mem_cons.mp hOther with rfl | hLater
          · exact hHere
          · exact before_trans hHere (hFirst other hLater)
      · next hPrecedes =>
          have hLater :=
            before_of_not_before (hNumbers first List.mem_cons_self)
              (fun hBefore => hPrecedes (precedes_iff.mpr hBefore))
          have hInserted :=
            ih hRest
              (fun other hOther =>
                hNumbers other (List.mem_cons_of_mem _ hOther))
          refine List.pairwise_cons.mpr ⟨?_, hInserted⟩
          intro other hOther
          rcases (Captures.mem_insert_iff rest).mp hOther with
            rfl | hOld
          · exact hLater
          · exact hFirst other hOld

end NamedSpan

------------------------------------------------------------
-- The Spans of a Column
------------------------------------------------------------

namespace Captures

variable {m : Match}
variable {captures : CaptureNames}
variable {base : List Scope}
variable {tokens : List Token}

/- The spans of the named groups that hold a column, in order. -/
def spansAt
    (m : Match)
    (captures : CaptureNames)
    (column : Nat) : List NamedSpan :=
  (spans m captures).filter
    (fun span => span.start ≤ column && column < span.stop)

/-
  The columns of a match from one of them on.  Each has the given
  scopes, and then the names of the spans that hold it.
-/
def columnsFrom
    (m : Match)
    (base : List Scope)
    (captures : CaptureNames)
    (first : Nat) : List (Nat × List Scope) :=
  (List.range' first (m.stop - first)).map
    (fun column =>
      (column,
        base ++ (spansAt m captures column).map NamedSpan.name))

theorem columnsFrom_eq_nil
    {first : Nat}
    (hStop : m.stop ≤ first) :
    columnsFrom m base captures first = [] := by
  unfold columnsFrom
  rw [Nat.sub_eq_zero_of_le hStop]
  rfl

/-
  The spans colour a column: they are those of the groups that
  have a name, took part in the match and hold the column, each
  of them once, and they are in order.
-/
structure Colours
    (m : Match)
    (captures : CaptureNames)
    (column : Nat)
    (spans : List NamedSpan) : Prop where
  mem_iff :
    ∀ span : NamedSpan,
      span ∈ spans ↔
        (span.number, span.name) ∈ captures ∧ span.name ≠ [] ∧
          m.group? span.number = some ⟨span.start, span.stop⟩ ∧
            span.start ≤ column ∧ column < span.stop
  inOrder : spans.Pairwise NamedSpan.Before

/- The spans of a match are those of its named groups. -/
theorem mem_spans_iff
    {span : NamedSpan} :
    span ∈ spans m captures ↔ ∃ c ∈ captures, span? m c = some span := by
  have hMember :
      ∀ found : List NamedSpan,
        span ∈ found.foldr NamedSpan.insert [] ↔ span ∈ found := by
    intro found
    induction found with
    | nil => rfl
    | cons first rest ih =>
        rw [List.foldr_cons, mem_insert_iff, ih, List.mem_cons]
  unfold spans
  rw [hMember, List.mem_filterMap]

theorem span?_eq_some_iff
    {c : Nat × Bytes}
    {span : NamedSpan} :
    span? m c = some span ↔
      (span.number, span.name) = c ∧ span.name ≠ [] ∧
        m.group? span.number = some ⟨span.start, span.stop⟩ ∧
          span.start < span.stop := by
  rcases c with ⟨number, name⟩
  rcases span with ⟨start, stop, number', name'⟩
  unfold span?
  constructor
  · intro hSpan
    split at hSpan
    · cases hSpan
    · next part hGroup =>
        split at hSpan
        · cases hSpan
        · next hKept =>
            cases hSpan
            simpa [hGroup] using hKept
  · rintro ⟨hSame, hName, hGroup, hWide⟩
    cases hSame
    dsimp only at hGroup hName hWide ⊢
    rw [hGroup]
    dsimp only
    rw [if_neg (by simp [hName, hWide])]

/- The spans are in order, for a group is named at most once. -/
theorem pairwise_spans
    (m : Match)
    (captures : CaptureNames) :
    (captures.map Prod.fst).Nodup →
      (spans m captures).Pairwise NamedSpan.Before := by
  induction captures with
  | nil =>
      intro _
      exact List.Pairwise.nil
  | cons c rest ih =>
      intro hNumbers
      rcases List.nodup_cons.mp hNumbers with ⟨hFresh, hRest⟩
      have hOrder := ih hRest
      cases hSpan : span? m c with
      | none => simpa [spans, hSpan] using hOrder
      | some span =>
          have hCons :
              spans m (c :: rest) =
                NamedSpan.insert span (spans m rest) := by
            simp [spans, hSpan]
          rw [hCons]
          refine NamedSpan.pairwise_insert _ hOrder ?_
          intro other hOther hSame
          rcases mem_spans_iff.mp hOther with ⟨d, hD, hFound⟩
          have hHere := (span?_eq_some_iff.mp hSpan).1
          have hThere := (span?_eq_some_iff.mp hFound).1
          apply hFresh
          rw [← hHere]
          dsimp only
          rw [hSame]
          exact List.mem_map.mpr ⟨d, hD, by rw [← hThere]⟩

/- The spans that hold a column are all that colour it. -/
theorem colours_spansAt
    (hNumbers : (captures.map Prod.fst).Nodup)
    (column : Nat) :
    Colours m captures column (spansAt m captures column) where
  mem_iff := by
    intro span
    unfold spansAt
    rw [List.mem_filter, mem_spans_iff, Bool.and_eq_true,
      decide_eq_true_iff, decide_eq_true_iff]
    constructor
    · rintro ⟨⟨c, hC, hSpan⟩, hFrom, hTo⟩
      rcases span?_eq_some_iff.mp hSpan with
        ⟨rfl, hName, hGroup, _⟩
      exact ⟨hC, hName, hGroup, hFrom, hTo⟩
    · rintro ⟨hC, hName, hGroup, hFrom, hTo⟩
      refine ⟨⟨_, hC, ?_⟩, hFrom, hTo⟩
      exact span?_eq_some_iff.mpr ⟨rfl, hName, hGroup, by omega⟩
  inOrder :=
    List.Pairwise.filter _ (pairwise_spans m captures hNumbers)

------------------------------------------------------------
-- Pieces
------------------------------------------------------------

/- The ends of the spans, as far as the match goes, are passed. -/
def ArePassed
    (m : Match)
    (spans : List NamedSpan)
    (cuts : List Nat) : Prop :=
  ∀ span ∈ spans,
    IsPassed cuts (max span.start m.start) ∧
      IsPassed cuts (min span.stop m.stop)

/- The match is cut at the ends of all its spans. -/
theorem arePassed_cuts
    (m : Match)
    (spans : List NamedSpan) :
    ArePassed m spans (cuts m spans) := by
  have hMember :
      ∀ span ∈ spans,
        max span.start m.start ∈ cuts m spans ∧
          min span.stop m.stop ∈ cuts m spans := by
    induction spans with
    | nil =>
        intro span hSpan
        cases hSpan
    | cons first rest ih =>
        intro span hSpan
        have hCons :
            cuts m (first :: rest) =
              insertCut (max first.start m.start)
                (insertCut (min first.stop m.stop)
                  (cuts m rest)) := rfl
        rw [hCons]
        simp only [mem_insertCut_iff]
        rcases List.mem_cons.mp hSpan with rfl | hRest
        · exact ⟨Or.inl rfl, Or.inr (Or.inl rfl)⟩
        · rcases ih span hRest with ⟨hFrom, hTo⟩
          exact ⟨Or.inr (Or.inr hFrom), Or.inr (Or.inr hTo)⟩
  intro span hSpan
  rcases hMember span hSpan with ⟨hFrom, hTo⟩
  exact ⟨Or.inl hFrom, Or.inl hTo⟩

/-
  A piece between two cuts has the scopes of each of its columns:
  no span begins or ends inside it.
-/
theorem scopesAt_eq
    {a b column : Nat}
    {rest : List Nat}
    (base : List Scope)
    (hOrder : (a :: b :: rest).Pairwise (· < ·))
    (hPassed : ArePassed m (spans m captures) (a :: b :: rest))
    (hInside : m.start ≤ a ∧ b ≤ m.stop)
    (hColumn : a ≤ column ∧ column < b) :
    scopesAt base (spans m captures) a b =
      base ++ (spansAt m captures column).map NamedSpan.name := by
  unfold scopesAt spansAt
  congr 2
  apply List.filter_congr
  intro span hSpan
  have hFrom := le_or_le_of_isPassed hOrder (hPassed span hSpan).1
  have hTo := le_or_le_of_isPassed hOrder (hPassed span hSpan).2
  rw [Bool.eq_iff_iff]
  unfold NamedSpan.holds
  simp only [Bool.and_eq_true, decide_eq_true_iff]
  omega

/- The columns of a piece come before those that follow it. -/
theorem columnsFrom_eq
    {a b : Nat}
    {scopes : List Scope}
    (hOrder : a ≤ b)
    (hBound : b ≤ m.stop)
    (hScopes :
      ∀ column,
        a ≤ column ∧ column < b →
          scopes =
            base ++ (spansAt m captures column).map NamedSpan.name) :
    columnsFrom m base captures a =
      Token.columns ⟨a, b, scopes⟩ ++
        columnsFrom m base captures b := by
  unfold columnsFrom Token.columns
  dsimp only
  rw [Tokens.range_split hOrder hBound, List.map_append]
  congr 1
  apply List.map_congr_left
  intro column hColumn
  rcases List.mem_range'_1.mp hColumn with ⟨hFrom, hTo⟩
  rw [hScopes column ⟨hFrom, by omega⟩]

/-
  The pieces between cuts add the columns of the match, from the
  cut `a` on or from the end of the match that is nearer if `a`
  lies outside it.  The induction is on the cuts.
-/
theorem columns_emitPieces
    (hBounds : m.start ≤ m.stop)
    (base : List Scope)
    (rest : List Nat) :
    ∀ {a : Nat} {tokens : List Token},
      (a :: rest).Pairwise (· < ·) →
        IsPassed (a :: rest) m.start →
          IsPassed (a :: rest) m.stop →
            ArePassed m (spans m captures) (a :: rest) →
              Tokens.IsProper tokens →
                Tokens.columns
                    (emitPieces m base (spans m captures) (a :: rest)
                      tokens) =
                  Tokens.columns tokens ++
                    columnsFrom m base captures
                      (max m.start (min a m.stop)) := by
  induction rest with
  | nil =>
      intro a tokens _ _ hStop _ _
      have hReached : m.stop ≤ a := by
        rcases hStop with hMember | ⟨first, hFirst, hLt⟩
        · exact Nat.le_of_eq (List.mem_singleton.mp hMember)
        · have hSame : a = first := Option.some.inj hFirst
          omega
      rw [columnsFrom_eq_nil (by omega)]
      exact (List.append_nil _).symm
  | cons b rest ih =>
      intro a tokens hOrder hStart hStop hPassed hProper
      rcases List.pairwise_cons.mp hOrder with ⟨hFirst, hRest⟩
      have hStep : a < b := hFirst b List.mem_cons_self
      have hLater : ArePassed m (spans m captures) (b :: rest) := by
        intro span hSpan
        rcases hPassed span hSpan with ⟨hFrom, hTo⟩
        exact ⟨isPassed_tail hStep hFrom, isPassed_tail hStep hTo⟩
      have hFrom := le_or_le_of_isPassed hOrder hStart
      have hTo := le_or_le_of_isPassed hOrder hStop
      unfold emitPieces
      dsimp only
      split
      · next hOutside =>
          rw [ih hRest (isPassed_tail hStep hStart)
            (isPassed_tail hStep hStop) hLater hProper]
          have hColumn :
              max m.start (min b m.stop) =
                max m.start (min a m.stop) := by
            rcases hOutside with hEarly | hLate
            · omega
            · omega
          rw [hColumn]
      · next hInside =>
          have hPiece :
              columnsFrom m base captures a =
                Token.columns
                    ⟨a, b, scopesAt base (spans m captures) a b⟩ ++
                  columnsFrom m base captures b :=
            columnsFrom_eq (Nat.le_of_lt hStep) (by omega)
              (fun _ hColumn =>
                scopesAt_eq base hOrder hPassed (by omega) hColumn)
          rw [ih hRest (isPassed_tail hStep hStart)
            (isPassed_tail hStep hStop) hLater
            (Tokens.isProper_push hProper a b _),
            Tokens.columns_push hProper]
          have hHere : max m.start (min a m.stop) = a := by
            omega
          have hNext : max m.start (min b m.stop) = b := by
            omega
          rw [hHere, hNext, hPiece, List.append_assoc]

/- No token before the pieces loses its start or its scopes. -/
theorem opening_emitPieces
    (m : Match)
    (base : List Scope)
    (spans : List NamedSpan)
    (rest : List Nat) :
    ∀ (a : Nat) (tokens : List Token),
      tokens.map Token.opening <:+
        (emitPieces m base spans (a :: rest) tokens).map
          Token.opening := by
  induction rest with
  | nil =>
      intro a tokens
      exact List.suffix_refl _
  | cons b rest ih =>
      intro a tokens
      unfold emitPieces
      dsimp only
      refine List.IsSuffix.trans ?_ (ih b _)
      split
      · exact List.suffix_refl _
      · exact Tokens.opening_push a b _

------------------------------------------------------------
-- Coloured Matches
------------------------------------------------------------

/-
  Colouring a match adds the columns of the match, in order and
  no others, to those of the tokens before it, of which at most
  the last is lengthened.  A column of the match has the given
  scopes and then the names of the groups that hold it.  The
  groups may lie anywhere.
-/
theorem columns_emit
    (m : Match)
    (base : List Scope)
    (hNumbers : (captures.map Prod.fst).Nodup)
    (hProper : Tokens.IsProper tokens) :
    (∀ column,
        Colours m captures column (spansAt m captures column)) ∧
      Tokens.columns (emit m base captures tokens) =
          Tokens.columns tokens ++
            columnsFrom m base captures m.start ∧
        tokens.map Token.opening <:+
          (emit m base captures tokens).map Token.opening := by
  refine ⟨colours_spansAt hNumbers, ?_⟩
  unfold emit
  split
  · next hEmpty =>
      rw [columnsFrom_eq_nil hEmpty]
      exact ⟨(List.append_nil _).symm, List.suffix_refl _⟩
  · next hWide =>
      dsimp only
      rcases exists_cuts_eq m (by omega) (spans m captures) with
        ⟨a, rest, hCuts, hLe, hOrder, hStart, hStop⟩
      have hPassed := arePassed_cuts m (spans m captures)
      have hColumn : max m.start (min a m.stop) = m.start := by
        omega
      rw [hCuts] at hPassed ⊢
      refine ⟨?_, opening_emitPieces m base _ rest a tokens⟩
      rw [columns_emitPieces (by omega) base rest hOrder hStart hStop
        hPassed hProper, hColumn]

/-
  The groups of this match overlap, lie in each other, reach over
  either end of it or lie outside it, are empty, did not take
  part or have no name.  Its first column lengthens the last
  token before it.
-/
theorem columns_emit_overlapping :
    let m : Match :=
      ⟨2, 8,
        [(1, ⟨1, 4⟩), (2, ⟨3, 6⟩), (3, ⟨3, 6⟩), (4, ⟨5, 5⟩),
          (6, ⟨2, 8⟩), (7, ⟨9, 11⟩), (8, ⟨7, 12⟩), (9, ⟨0, 2⟩)]⟩
    let captures : CaptureNames :=
      [(1, utf8 "a"), (2, utf8 "b"), (3, utf8 "c"), (4, utf8 "d"),
        (5, utf8 "e"), (6, []), (7, utf8 "f"), (8, utf8 "g"),
        (9, utf8 "h")]
    let tokens : List Token := [⟨0, 2, [utf8 "s", utf8 "a"]⟩]
    (captures.map Prod.fst).Nodup ∧ Tokens.IsProper tokens ∧
      Tokens.columns (emit m [utf8 "s"] captures tokens) =
        [(0, [utf8 "s", utf8 "a"]), (1, [utf8 "s", utf8 "a"]),
          (2, [utf8 "s", utf8 "a"]),
          (3, [utf8 "s", utf8 "a", utf8 "b", utf8 "c"]),
          (4, [utf8 "s", utf8 "b", utf8 "c"]),
          (5, [utf8 "s", utf8 "b", utf8 "c"]), (6, [utf8 "s"]),
          (7, [utf8 "s", utf8 "g"])] := by
  intro m captures tokens
  have hNumbers : (captures.map Prod.fst).Nodup := by decide
  have hProper : Tokens.IsProper tokens := by
    simp [Tokens.IsProper, tokens]
  refine ⟨hNumbers, hProper, ?_⟩
  rw [(columns_emit m [utf8 "s"] hNumbers hProper).2.1]
  decide +kernel

end Captures

end Marginalia

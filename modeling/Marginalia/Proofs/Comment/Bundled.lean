import Marginalia.Grammar.Bundled
import Marginalia.Proofs.Comment.Documents
import Marginalia.Proofs.Grammar.Evaluation

/-
  This file proves that with the grammars that come with the
  server a comment that is looked up at its start is found again.

  Whether a grammar is neat is read off its declaration by a
  check, which is run on each of the six grammars.  The end of a
  documentation comment after `#` refers to its begin, so the
  check goes through the texts that this begin may have.

  How patterns are searched for is left open.  Any engine will do
  that reads sources as the standard one does and finds what is
  written in its patterns.

  One grammar does not mark all of its block comments: with it
  only line comments are found again.

  Key definitions include:
    * `Ending.isCoveredBy`
    * `Rule.isNeat`, `Grammar.isNeat`
    * `Grammar.ofJsonWithin?`
  The main statements are:
    * `Rule.neat_of_isNeat`
    * `Grammar.exists_neat_of_isNeat`
    * `Bundled.lookup_start`
-/

namespace Marginalia

------------------------------------------------------------
-- Ends That Refer to Their Begin
------------------------------------------------------------

namespace BackReference

/-
  The source with each reference to a group replaced by a pattern
  for a text, if it refers to no other group.
-/
def fill? (number : Nat) (text : Bytes) : Bytes → Option Bytes
| Ascii.backslash :: b :: rest =>
    if isGroupDigit b then
      if b.toNat - 48 = number then
        (fill? number text rest).map (fun more =>
          Pattern.escape text ++ more)
      else none
    else
      (fill? number text rest).map (fun more =>
        Ascii.backslash :: b :: more)
| b :: rest => (fill? number text rest).map (fun more => b :: more)
| [] => some []

/- A source that refers to one group is filled in with its text. -/
theorem resolve_eq_of_fill?
    {line : Array UInt8}
    {m : Match}
    {number : Nat}
    (source : Bytes) :
    ∀ {filled : Bytes},
      fill? number (groupText line m number) source = some filled →
        resolve line m source = filled := by
  fun_induction resolve line m source with
  | case1 b rest hDigit ih =>
      intro filled hFill
      rw [fill?, if_pos hDigit] at hFill
      split at hFill
      · next hNumber =>
          rcases Option.map_eq_some_iff.mp hFill with ⟨more, hMore, rfl⟩
          rw [hNumber, ih hMore]
      · cases hFill
  | case2 b rest hOther ih =>
      intro filled hFill
      rw [fill?, if_neg hOther] at hFill
      rcases Option.map_eq_some_iff.mp hFill with ⟨more, hMore, rfl⟩
      rw [ih hMore]
  | case3 b rest hPlain ih =>
      intro filled hFill
      rw [fill?] at hFill
      · rcases Option.map_eq_some_iff.mp hFill with ⟨more, hMore, rfl⟩
        rw [ih hMore]
      · exact hPlain
  | case4 =>
      intro filled hFill
      exact Option.some.inj hFill

end BackReference

/-
  Every end of a region that opens with the pattern is covered by
  the group.  If the end refers to the begin, the begin is covered
  by the group `reference` and has a few texts.
-/
def Ending.isCoveredBy
    (opening : Pattern)
    (reference number : Nat)
    (endSource : Bytes) : Ending → Bool
| .fixed closing => closing.all (fun p => p.isCoveredBy number)
| .referring =>
    number == 0 ||
      match opening.root.texts? with
      | none => false
      | some texts =>
          texts.all (fun text =>
            match BackReference.fill? reference text endSource with
            | none => false
            | some source =>
                (Pattern.compile? source).all (fun p =>
                  p.isCoveredBy number))

/- The end that a begin leads to is covered by the group. -/
theorem Ending.covered_of_isCoveredBy
    {engine : Engine}
    {opening closing : Pattern}
    {reference number : Nat}
    {endSource source : Bytes}
    {ending : Ending}
    {line : Array UInt8}
    {column : Nat}
    {m : Match}
    (hCompile : engine.compile? = Pattern.compile?)
    (hFinds : engine.FindsAsWritten)
    (hCheck :
      ending.isCoveredBy opening reference number endSource = true)
    (hOpening : opening.isCoveredBy reference = true)
    (hSearch : engine.search? opening line column = some m)
    (hEnding :
      LineState.endingFor engine line m endSource ending =
        (some closing, source)) :
    closing.isCoveredBy number = true := by
  cases ending with
  | fixed fixed =>
      cases hEnding
      exact hCheck
  | referring =>
      unfold isCoveredBy at hCheck
      rw [Bool.or_eq_true] at hCheck
      rcases hCheck with hWhole | hTexts
      · unfold Pattern.isCoveredBy
        rw [hWhole, Bool.true_or]
      · cases hKnown : opening.root.texts? with
        | none =>
            rw [hKnown] at hTexts
            cases hTexts
        | some texts =>
            rw [hKnown] at hTexts
            dsimp only at hTexts
            have hText :
                BackReference.groupText line m reference ∈ texts := by
              unfold BackReference.groupText
              rw [hFinds.covers hOpening hSearch]
              exact hFinds.reads hKnown hSearch
            have hFilled := List.all_eq_true.mp hTexts _ hText
            cases hFill :
                BackReference.fill? reference
                  (BackReference.groupText line m reference)
                  endSource with
            | none =>
                rw [hFill] at hFilled
                cases hFilled
            | some filled =>
                rw [hFill] at hFilled
                dsimp only at hFilled
                have hClosing :
                    Pattern.compile? filled = some closing := by
                  rw [← hCompile,
                    ← BackReference.resolve_eq_of_fill? _ hFill]
                  exact congrArg Prod.fst hEnding
                rw [hClosing] at hFilled
                exact hFilled

------------------------------------------------------------
-- Checking Rules
------------------------------------------------------------

/- No group has the name of a comment. -/
def CaptureNames.isPlain (captures : CaptureNames) : Bool :=
  captures.all (fun c => !Scope.isUnder c.2 Scope.comment)

/- The names of groups that pass the check. -/
theorem CaptureNames.forall_of_isPlain
    {captures : CaptureNames}
    (hCheck : captures.isPlain = true) :
    ∀ c ∈ captures, Scope.isUnder c.2 Scope.comment = false := by
  intro c hC
  simpa using List.all_eq_true.mp hCheck c hC

namespace Rule

variable {engine : Engine}

/-
  One group covers the begin of a region and has the name of a
  begin mark, and one covers its end.
-/
def hasMarks
    (opening : Option Pattern)
    (captures : CaptureNames)
    (endSource : Bytes)
    (ending : Ending)
    (endCaptures : CaptureNames) : Bool :=
  match opening, captures, endCaptures with
  | some p, [(reference, name)], [(number, endName)] =>
      p.root.opens && p.isCoveredBy reference &&
        Scope.isUnder name Scope.openMark &&
        !Scope.isUnder name Scope.closeMark && !endName.isEmpty &&
        !Scope.isUnder endName Scope.openMark &&
        ending.isCoveredBy p reference number endSource
  | _, _, _ => false

/-
  The rule is neat, if it has no candidates unless rules are
  written below it.
-/
def isNeat (marked : Bool) (rule : Rule) : Bool :=
  match rule.body with
  | .container => true
  | .single pattern captures =>
      CaptureNames.isPlain captures &&
        (Scope.isPlain rule.name ||
          (Scope.isUnder rule.name Scope.comment &&
            Scope.isLineComment rule.name &&
            pattern.all (fun p => p.root.opens)))
  | .region opening captures endSource ending endCaptures _ =>
      CaptureNames.isPlain captures &&
        CaptureNames.isPlain endCaptures &&
        ((Scope.isPlain rule.name && Scope.isPlain rule.contentName) ||
          (Scope.isBlock rule.name && rule.contentName.isEmpty &&
            rule.patterns.isEmpty &&
            (!marked ||
              hasMarks opening captures endSource ending endCaptures)))

/- A region that passes the check is marked. -/
theorem marks_of_hasMarks
    {opening : Option Pattern}
    {captures endCaptures : CaptureNames}
    {endSource : Bytes}
    {ending : Ending}
    (hCompile : engine.compile? = Pattern.compile?)
    (hFinds : engine.FindsAsWritten)
    (hCheck :
      hasMarks opening captures endSource ending endCaptures = true) :
    Marks engine opening captures endSource ending endCaptures := by
  unfold hasMarks at hCheck
  split at hCheck
  · next p reference name number endName =>
      simp only [Bool.and_eq_true, Bool.not_eq_true',
        List.isEmpty_eq_false_iff] at hCheck
      rcases hCheck with
        ⟨⟨⟨⟨⟨⟨hOpens, hCovered⟩, hOpen⟩, hClose⟩, hName⟩, hEnd⟩, hEnding⟩
      refine ⟨?_, ?_, ?_⟩
      · intro other hOther
        cases hOther
        exact hOpens
      · refine ⟨reference, name, rfl, hOpen, hClose, ?_⟩
        intro other hOther
        cases hOther
        exact hCovered
      · refine ⟨number, endName, rfl, hName, hEnd, ?_⟩
        intro other hOther line column m q source hSearch hFound
        cases hOther
        exact
          Ending.covered_of_isCoveredBy hCompile hFinds hEnding hCovered
            hSearch hFound
  · cases hCheck

/- A rule that passes the check is neat. -/
theorem neat_of_isNeat
    {marked : Bool}
    {rule : Rule}
    (hCompile : engine.compile? = Pattern.compile?)
    (hFinds : engine.FindsAsWritten)
    (hCheck : rule.isNeat marked = true)
    (hCandidates : rule.patterns = [] → rule.candidates = []) :
    rule.Neat engine marked := by
  unfold isNeat at hCheck
  cases hBody : rule.body with
  | container => exact Neat.container hBody
  | single pattern captures =>
      rw [hBody] at hCheck
      dsimp only at hCheck
      rw [Bool.and_eq_true, Bool.or_eq_true] at hCheck
      rcases hCheck with ⟨hCaptures, hPlain | hLine⟩
      · exact
          Neat.single hBody hPlain
            (CaptureNames.forall_of_isPlain hCaptures)
      · rw [Bool.and_eq_true, Bool.and_eq_true] at hLine
        refine
          Neat.line hBody hLine.1.1 hLine.1.2
            (CaptureNames.forall_of_isPlain hCaptures) ?_
        intro p hP
        cases hP
        exact hLine.2
  | region opening captures endSource ending endCaptures endLast =>
      rw [hBody] at hCheck
      simp only [Bool.and_eq_true, Bool.or_eq_true, Bool.not_eq_true',
        List.isEmpty_iff] at hCheck
      rcases hCheck with ⟨⟨hCaptures, hEndCaptures⟩, hPlain | hBlock⟩
      · exact
          Neat.region hBody hPlain.1 hPlain.2
            (CaptureNames.forall_of_isPlain hCaptures)
            (CaptureNames.forall_of_isPlain hEndCaptures)
      · rcases hBlock with ⟨⟨⟨hName, hContent⟩, hPatterns⟩, hMarks⟩
        refine
          Neat.block hBody hName hContent (hCandidates hPatterns)
            (CaptureNames.forall_of_isPlain hCaptures)
            (CaptureNames.forall_of_isPlain hEndCaptures) ?_
        intro hMarked
        rcases hMarks with hUnmarked | hHas
        · rw [hMarked] at hUnmarked
          cases hUnmarked
        · exact marks_of_hasMarks hCompile hFinds hHas

end Rule

------------------------------------------------------------
-- Checking Grammars
------------------------------------------------------------

namespace Grammar

variable {engine : BoundedEngine}

/- The rules of a grammar and its scope name pass the check. -/
def isNeat (marked : Bool) (value : Json) : Bool :=
  match draft? .standard value with
  | none => false
  | some (scopeName, rules) =>
      Scope.isPlain scopeName && rules.all (fun r => r.isNeat marked)

/- A grammar whose rules pass the check is neat. -/
theorem neat_flatten
    {marked : Bool}
    {scopeName : Bytes}
    {rules : Array Rule}
    (hCompile : engine.compile? = Pattern.compile?)
    (hFinds : engine.FindsAsWritten)
    (hName : Scope.isPlain scopeName = true)
    (hRules : rules.all (fun r => r.isNeat marked) = true) :
    Neat marked ⟨engine, scopeName, RuleTable.flatten rules⟩ where
  finds := hFinds
  scopeName := hName
  rules := by
    intro id
    change
      (RuleTable.ruleAt (RuleTable.flatten rules) id).Neat
        engine.toEngine marked
    by_cases hLt : id < rules.size
    · rw [ruleAt_flatten hLt]
      apply Rule.neat_of_isNeat hCompile hFinds
      · have hRule := Array.all_eq_true.mp hRules id hLt
        rw [RuleTable.ruleAt, Array.getD_eq_getD_getElem?,
          Array.getElem?_eq_getElem hLt]
        exact hRule
      · intro hPatterns
        dsimp only at hPatterns ⊢
        unfold RuleTable.candidates
        rw [hPatterns, RuleTable.collect_nil]
    · rw [ruleAt_flatten_of_le (Nat.le_of_not_lt hLt)]
      exact Rule.Neat.container rfl

/- A value that passes the check denotes a neat grammar. -/
theorem exists_neat_of_isNeat
    {marked : Bool}
    {value : Json}
    (hCompile : engine.compile? = Pattern.compile?)
    (hFinds : engine.FindsAsWritten)
    (hCheck : isNeat marked value = true) :
    ∃ grammar,
      ofJson engine value = (.ok (some grammar), []) ∧
        grammar.Neat marked := by
  have hAlike : draft? engine value = draft? .standard value :=
    draft?_congr hCompile value
  unfold isNeat at hCheck
  rw [← hAlike] at hCheck
  cases hDraft : draft? engine value with
  | none =>
      rw [hDraft] at hCheck
      cases hCheck
  | some outcome =>
      rcases outcome with ⟨scopeName, rules⟩
      rw [hDraft] at hCheck
      dsimp only at hCheck
      rw [Bool.and_eq_true] at hCheck
      exact
        ⟨_, ofJson_of_draft? hDraft,
          neat_flatten hCompile hFinds hCheck.1 hCheck.2⟩

end Grammar

------------------------------------------------------------
-- Bundled Grammars
------------------------------------------------------------

namespace Bundled

/- The grammars that come with the server, with their names. -/
def named : List (Bytes × Json) :=
  [ (utf8 "cstyle", cstyle),
    (utf8 "hash", hash),
    (utf8 "dashdash", dashdash),
    (utf8 "markup", markup),
    (utf8 "percent", percent),
    (utf8 "semicolon", semicolon) ]

/- There are no other grammars. -/
theorem mem_named_of_grammar?
    {name : Bytes}
    {value : Json}
    (hBundled : grammar? name = some value) :
    (name, value) ∈ named := by
  unfold grammar? at hBundled
  repeat
    split at hBundled
    · next hName =>
        cases hBundled
        simp [named, hName]
  cases hBundled

/- Each grammar is neat, and all but one mark their block comments. -/
theorem isNeat_of_mem_named :
    ∀ g ∈ named, Grammar.isNeat (g.1 != utf8 "percent") g.2 = true := by
  have hAll :
      named.all (fun g =>
          Grammar.isNeat (g.1 != utf8 "percent") g.2) =
        true := by
    decide +kernel
  exact List.all_eq_true.mp hAll

/-
  With a grammar that comes with the server, a comment that is
  looked up at its start is found again, with all that there is to
  it.  With the grammar of percent signs this is so for line
  comments.  However patterns are searched for, it is enough that
  what is found is what is written in them.
-/
theorem lookup_start
    {engine : BoundedEngine}
    {name : Bytes}
    {value : Json}
    (hCompile : engine.compile? = Pattern.compile?)
    (hFinds : engine.FindsAsWritten)
    (hBundled : grammar? name = some value) :
    ∃ grammar,
      Grammar.ofJson engine value = (.ok (some grammar), []) ∧
        ∀ (document : Document) (maxLength n k : Nat)
          (settings : MergeSettings) (position : Position)
          (block : CommentBlock),
          let fresh :=
            TokenizedDocument.create grammar document maxLength
          (TokenizedDocument.answer
                (CommentLookup.compute fresh.lines settings position)
                (fresh.extend n)).1 =
              .found block →
            block.isLineComment = true ∨ name ≠ utf8 "percent" →
              (TokenizedDocument.answer
                    (CommentLookup.compute fresh.lines settings
                      block.range.start)
                    (fresh.extend k)).1 =
                .found block := by
  have hCheck := isNeat_of_mem_named _ (mem_named_of_grammar? hBundled)
  rcases Grammar.exists_neat_of_isNeat hCompile hFinds hCheck with
    ⟨grammar, hGrammar, hNeat⟩
  refine ⟨grammar, hGrammar, ?_⟩
  intro document maxLength n k settings position block fresh hFound hKind
  apply TokenizedDocument.lookup_start_of_neat hNeat hFound
  rcases hKind with hLine | hName
  · exact Or.inl hLine
  · exact Or.inr (by simpa using hName)

------------------------------------------------------------
-- Two Documents
------------------------------------------------------------

/-
  A lookup in a document with at most `steps` steps for each walk
  through the rules and for each line.
-/
def lookupWithin?
    (steps : Nat)
    (value : Json)
    (document : Document)
    (maxLength : Nat)
    (settings : MergeSettings)
    (position : Position) : Option CommentLookup :=
  match Grammar.ofJsonWithin? .standard steps value with
  | none => none
  | some grammar =>
      let fresh := TokenizedDocument.create grammar document maxLength
      (TokenizedDocument.extendWithin? steps fresh.lines.size fresh).map
        (fun d =>
          (CommentLookup.compute fresh.lines settings position).eval
            d.tokensIn)

/- A lookup that ends within a bound. -/
theorem answer_of_lookupWithin?
    {steps maxLength : Nat}
    {value : Json}
    {grammar : Grammar}
    {document : Document}
    {settings : MergeSettings}
    {position : Position}
    {result : CommentLookup}
    (hGrammar :
      Grammar.ofJson .standard value = (.ok (some grammar), []))
    (hLookup :
      lookupWithin? steps value document maxLength settings position =
        some result)
    (n : Nat) :
    (TokenizedDocument.answer
          (CommentLookup.compute
            (TokenizedDocument.create grammar document maxLength).lines
            settings position)
          ((TokenizedDocument.create grammar document maxLength).extend
            n)).1 =
      result := by
  unfold lookupWithin? at hLookup
  cases hWithin : Grammar.ofJsonWithin? .standard steps value with
  | none =>
      rw [hWithin] at hLookup
      cases hLookup
  | some other =>
      rw [Grammar.ofJson_of_ofJsonWithin? hWithin] at hGrammar
      cases hGrammar
      rw [hWithin] at hLookup
      rcases Option.map_eq_some_iff.mp hLookup with ⟨last, hExtend, rfl⟩
      exact
        TokenizedDocument.answer_of_extendWithin?
          (TokenizedDocument.fresh_create _ _ _) hExtend _ n

/-
  A documentation comment between three quotes is found in its
  second line, and again at its start.
-/
theorem lookup_start_docstring :
    let document : Document :=
      ⟨utf8 "file:///a", utf8 "python", 1,
        utf8 "x = '''one\n two'''\n"⟩
    ∃ grammar,
      Grammar.ofJson .standard hash = (.ok (some grammar), []) ∧
        let fresh :=
          TokenizedDocument.create grammar document defaultMaxLength
        ∃ block,
          (TokenizedDocument.answer
                (CommentLookup.compute fresh.lines ⟨true, .strict⟩
                  ⟨1, 2⟩)
                (fresh.extend 0)).1 =
              .found block ∧
            block.range.start = ⟨0, 4⟩ ∧
              block.comment = utf8 "one two" ∧
                (TokenizedDocument.answer
                      (CommentLookup.compute fresh.lines ⟨true, .strict⟩
                        ⟨0, 4⟩)
                      (fresh.extend 2)).1 =
                  .found block := by
  intro document
  have hLookup :
      lookupWithin? 60 hash document defaultMaxLength ⟨true, .strict⟩
          ⟨1, 2⟩ =
        some
          (.found
            { range := ⟨⟨0, 4⟩, ⟨1, 7⟩⟩
              comment := utf8 "one two"
              isLineComment := false
              humanize := false
              scope := utf8 "comment.block.documentation.hash" }) := by
    decide +kernel
  rcases
      @lookup_start .standard (utf8 "hash") hash rfl
        Engine.standard_findsAsWritten rfl with
    ⟨grammar, hGrammar, hAgain⟩
  have hFound := answer_of_lookupWithin? hGrammar hLookup 0
  have hName : utf8 "hash" ≠ utf8 "percent" := by decide
  have hLater :=
    hAgain document defaultMaxLength 0 2 ⟨true, .strict⟩ ⟨1, 2⟩ _ hFound
      (Or.inr hName)
  exact ⟨grammar, hGrammar, _, hFound, rfl, rfl, hLater⟩

/-
  With percent signs a block comment need not be found again: its
  end mark may stand before a blank, which belongs to the comment
  and is no mark.  From the blank the comment reaches up to it, and
  from its start up to the end mark.
-/
theorem exists_lookup_start_ne_percent :
    let document : Document :=
      ⟨utf8 "file:///a", utf8 "latex", 1, utf8 "%\x7b\na\n%\x7d "⟩
    ∃ grammar,
      Grammar.ofJson .standard percent = (.ok (some grammar), []) ∧
        let fresh :=
          TokenizedDocument.create grammar document defaultMaxLength
        ∃ block other,
          (TokenizedDocument.answer
                (CommentLookup.compute fresh.lines ⟨true, .strict⟩
                  ⟨2, 3⟩)
                (fresh.extend 0)).1 =
              .found block ∧
            block.range = ⟨⟨0, 0⟩, ⟨2, 3⟩⟩ ∧
              (TokenizedDocument.answer
                    (CommentLookup.compute fresh.lines ⟨true, .strict⟩
                      block.range.start)
                    (fresh.extend 3)).1 =
                  .found other ∧
                other.range = ⟨⟨0, 0⟩, ⟨2, 2⟩⟩ := by
  intro document
  have hBlock :
      lookupWithin? 60 percent document defaultMaxLength
          ⟨true, .strict⟩ ⟨2, 3⟩ =
        some
          (.found
            { range := ⟨⟨0, 0⟩, ⟨2, 3⟩⟩
              comment := utf8 "a"
              isLineComment := false
              humanize := true
              scope := utf8 "comment.block.percent" }) := by
    decide +kernel
  have hOther :
      lookupWithin? 60 percent document defaultMaxLength
          ⟨true, .strict⟩ ⟨0, 0⟩ =
        some
          (.found
            { range := ⟨⟨0, 0⟩, ⟨2, 2⟩⟩
              comment := utf8 "a"
              isLineComment := false
              humanize := true
              scope := utf8 "comment.block.percent" }) := by
    decide +kernel
  rcases
      @Grammar.exists_neat_of_isNeat .standard _ _ rfl
        Engine.standard_findsAsWritten
        (isNeat_of_mem_named _
          (@mem_named_of_grammar? (utf8 "percent") percent rfl)) with
    ⟨grammar, hGrammar, _⟩
  have hFirst := answer_of_lookupWithin? hGrammar hBlock 0
  have hSecond := answer_of_lookupWithin? hGrammar hOther 3
  exact ⟨grammar, hGrammar, _, _, hFirst, rfl, hSecond, rfl⟩

end Bundled

end Marginalia

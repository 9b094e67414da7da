import Marginalia.Proofs.Comment.Idempotence
import Marginalia.Proofs.Comment.Orderly
import Marginalia.Proofs.Comment.Safety

/-
  This file proves that the tokens of a document with a neat
  grammar are as they have to be for a comment to be found again
  at its start.

  The links of a line go back to the last token before it, which
  may stand several lines above.  So lines are taken from the
  first one on, each with the scopes of that token.

  Key definitions include:
    * `Tokens.lastBefore?`
    * `Tokens.Woven`
    * `TokenizedDocument.Woven`
  The main statements are:
    * `TokenizedDocument.woven_tokensAt`
    * `Tokens.tidy_of_woven`
    * `Tokens.marked_of_woven`
    * `TokenizedDocument.lookup_start_of_neat`
-/

namespace Marginalia

variable {marked : Bool}
variable {lines : Array Bytes}
variable {tokens : Nat → List Token}

------------------------------------------------------------
-- Links Across Lines
------------------------------------------------------------

namespace Tokens

/- The scopes of the last token of the lines before a line. -/
def lastBefore?
    (tokens : Nat → List Token)
    (line : Nat) : Option (List Scope) :=
  (above tokens line).head?.map (fun p => p.2.scopes)

/- The last token before the next line may be one of this line. -/
theorem lastBefore?_succ
    (tokens : Nat → List Token)
    (line : Nat) :
    lastBefore? tokens (line + 1) =
      lastScopes? (lastBefore? tokens line) (tokens line).reverse := by
  unfold lastBefore? lastScopes?
  rw [above, List.head?_append, Option.map_or, placed,
    ← List.map_reverse, List.head?_map, Option.map_map]
  rfl

/- What stands above a line depends on the lines above it. -/
theorem above_congr
    {other : Nat → List Token}
    (line : Nat) :
    (∀ k < line, tokens k = other k) →
      above tokens line = above other line := by
  induction line with
  | zero =>
      intro _
      rfl
  | succ line ih =>
      intro hSame
      rw [above, above, hSame line (Nat.lt_succ_self line),
        ih (fun k hLt => hSame k (Nat.lt_succ_of_lt hLt))]

/- The tokens of each line are linked as those of comments are. -/
def Woven
    (marked : Bool)
    (lines : Array Bytes)
    (tokens : Nat → List Token) : Prop :=
  ∀ line < lines.size,
    Linked (CommentLink marked (lines.getD line []))
      (lastBefore? tokens line) (tokens line).reverse

/- The first of some tokens in reverse are linked. -/
theorem linked_of_append
    {link : Option (List Scope) → Nat → List Scope → Prop}
    {before? : Option (List Scope)}
    {earlier : List Token}
    (later : List Token) :
    Linked link before? (later ++ earlier) →
      Linked link before? earlier := by
  induction later with
  | nil => exact id
  | cons token later ih =>
      intro hLinked
      exact ih hLinked.2

/- The link of a token of a line. -/
theorem link_of_woven
    {line index : Nat}
    {token : Token}
    (hWoven : Woven marked lines tokens)
    (hLine : line < lines.size)
    (hToken : (tokens line)[index]? = some token) :
    CommentLink marked (lines.getD line [])
      (lastScopes? (lastBefore? tokens line)
        ((tokens line).take index).reverse)
      token.start token.scopes := by
  have hLinked := hWoven line hLine
  rcases List.getElem?_eq_some_iff.mp hToken with ⟨hIndex, rfl⟩
  have hSplit :
      (tokens line).reverse =
        ((tokens line).drop (index + 1)).reverse ++
          (tokens line)[index] :: ((tokens line).take index).reverse := by
    conv =>
      lhs
      rw [← List.take_append_drop index (tokens line),
        List.drop_eq_getElem_cons hIndex]
    simp
  rw [hSplit] at hLinked
  exact (linked_of_append _ hLinked).1

/-
  A token that is not linked to one of its comment starts with a
  character: it is the first one of its line, or the one before it
  is none of the comment.
-/
theorem sharp_of_not_linked
    {line index : Nat}
    {token : Token}
    {scope : Scope}
    (hTokens : Partitioned lines tokens)
    (hLine : line < lines.size)
    (hToken : (tokens line)[index]? = some token)
    (hAlone :
      ∀ {k : Nat} {t : Token},
        k + 1 = index →
          (tokens line)[k]? = some t → t.carries scope = false)
    (hLink :
      Utf16.Sharp (lines.getD line []) token.start ∨
        ∃ older ∈
          lastScopes? (lastBefore? tokens line)
            ((tokens line).take index).reverse,
          scope ∈ older) :
    Utf16.Sharp (lines.getD line []) token.start := by
  rcases hLink with hSharp | ⟨older, hOlder, hScope⟩
  · exact hSharp
  · cases index with
    | zero =>
        have hFirst :=
          (hTokens line hLine).start_of_first token
            (by rw [List.head?_eq_getElem?]; exact hToken)
        rw [hFirst]
        exact Utf16.sharp_zero _
    | succ k =>
        have hIndex : k < (tokens line).length :=
          Nat.lt_of_succ_lt (List.getElem?_eq_some_iff.mp hToken).1
        have hBefore := List.getElem?_eq_getElem hIndex
        have hLast :
            lastScopes? (lastBefore? tokens line)
                ((tokens line).take (k + 1)).reverse =
              some (tokens line)[k].scopes := by
          rw [List.take_succ_eq_append_getElem hIndex,
            List.reverse_append]
          rfl
        rw [hLast] at hOlder
        cases hOlder
        have hCarries := hAlone rfl hBefore
        unfold Token.carries at hCarries
        rw [List.contains_eq_mem, decide_eq_false_iff_not] at hCarries
        exact absurd hScope hCarries

------------------------------------------------------------
-- Tidy Tokens
------------------------------------------------------------

/- The scope of a block comment is one of a comment. -/
theorem isUnder_comment_of_block
    {scope : Scope}
    (hBlock : scope.isLineComment = false) :
    scope.isUnder Scope.comment = true := by
  unfold Scope.isLineComment at hBlock
  rw [Bool.not_eq_false'] at hBlock
  rcases Scope.eq_or_exists_of_isUnder hBlock with rfl | ⟨rest, rfl⟩
  · rfl
  · rfl

/- The token has the scope. -/
theorem mem_of_carries
    {token : Token}
    {scope : Scope}
    (hCarries : token.carries scope = true) :
    scope ∈ token.scopes := by
  simpa [Token.carries] using hCarries

/- Linked tokens belong to one comment each, and are tidy. -/
theorem tidy_of_woven
    (hTokens : Partitioned lines tokens)
    (hWoven : Woven marked lines tokens) :
    Tidy lines tokens where
  commentScope?_eq := by
    intro line t scope hLine hMember hCarries hUnder
    rcases List.getElem?_of_mem hMember with ⟨index, hToken⟩
    have hLink := link_of_woven hWoven hLine hToken
    have hScope := mem_of_carries hCarries
    cases hFound : t.commentScope? with
    | none =>
        have hNone :=
          List.find?_eq_none.mp hFound scope (List.mem_reverse.mpr hScope)
        exact absurd hUnder hNone
    | some other =>
        rcases Token.properties_of_commentScope? hFound with
          ⟨hOther, hOtherUnder⟩
        rw [hLink.eq_of_under scope hScope other hOther hUnder
          hOtherUnder]
  sharp := by
    intro line index first scope hLine hFirst hScope hKind hAlone
    rcases Token.properties_of_commentScope? hScope with
      ⟨hMember, hUnder⟩
    have hLink := link_of_woven hWoven hLine hFirst
    exact
      sharp_of_not_linked hTokens hLine hFirst hAlone
        (hLink.line_starts scope hMember hUnder hKind)

------------------------------------------------------------
-- Marked Comments
------------------------------------------------------------

/- Linked tokens have a begin mark behind an end mark. -/
theorem parts_of_link
    {line start : Nat}
    {text : Bytes}
    {newer : Token}
    {older : Placed}
    (hLink :
      CommentLink true text (some older.2.scopes) start newer.scopes) :
    Parts (line, newer) older := by
  intro scope hKind hNewer hOlder hClose
  exact
    hLink.parted rfl scope (mem_of_carries hNewer)
      (isUnder_comment_of_block hKind) hKind older.2.scopes rfl
      (mem_of_carries hOlder) hClose

/-
  The tokens of a line, put before those above it, are parted.  The
  induction is on the tokens, which are in reverse.
-/
theorem isChain_parts_append
    {text : Bytes}
    {earlier : List Placed}
    (line : Nat)
    (hEarlier : earlier.IsChain Parts)
    (ts : List Token) :
    Linked (CommentLink true text)
        (earlier.head?.map (fun p => p.2.scopes)) ts →
      (placed line ts ++ earlier).IsChain Parts := by
  induction ts with
  | nil =>
      intro _
      exact hEarlier
  | cons token rest ih =>
      intro hLinked
      refine List.isChain_cons.mpr ⟨?_, ih hLinked.2⟩
      intro older hOlder
      have hLink := hLinked.1
      have hLast :
          lastScopes? (earlier.head?.map (fun p => p.2.scopes)) rest =
            some older.2.scopes := by
        have hHead : (placed line rest ++ earlier).head? = some older :=
          hOlder
        have hSame :
            lastScopes? (earlier.head?.map (fun p => p.2.scopes)) rest =
              (placed line rest ++ earlier).head?.map
                (fun p => p.2.scopes) := by
          unfold lastScopes?
          rw [List.head?_append, Option.map_or, placed, List.head?_map,
            Option.map_map]
          rfl
        rw [hSame, hHead]
        rfl
      rw [hLast] at hLink
      exact parts_of_link hLink

/- The tokens above a line are parted. -/
theorem isChain_parts_above
    (hWoven : Woven true lines tokens)
    (line : Nat) :
    line ≤ lines.size → (above tokens line).IsChain Parts := by
  induction line with
  | zero =>
      intro _
      exact List.IsChain.nil
  | succ line ih =>
      intro hLine
      have hLinked := hWoven line hLine
      have hRest :=
        isChain_parts_append line (ih (Nat.le_of_succ_le hLine)) _
          hLinked
      rw [above, placed, ← List.map_reverse]
      exact hRest

/- The tokens of a grammar whose block comments are marked. -/
theorem marked_of_woven
    (hTokens : Partitioned lines tokens)
    (hWoven : Woven true lines tokens) :
    Marked lines tokens where
  parted := isChain_parts_above hWoven lines.size (Nat.le_refl _)
  sharp := by
    intro line index first scope hLine hFirst hScope hKind hMark
    rcases Token.properties_of_commentScope? hScope with
      ⟨hMember, hUnder⟩
    have hLink := link_of_woven hWoven hLine hFirst
    rcases hLink.block_starts rfl scope hMember hUnder hKind with
      hSharp | ⟨hBegins, hOlder⟩
    · exact hSharp
    · rcases hMark with hOpen | hAlone
      · have hNot : first.isOpenMark = false := hBegins
        rw [hNot] at hOpen
        cases hOpen
      · exact
          sharp_of_not_linked hTokens hLine hFirst hAlone
            (Or.inr hOlder)

end Tokens

------------------------------------------------------------
-- Documents
------------------------------------------------------------

namespace TokenizedDocument

variable {d : TokenizedDocument}

/-
  The lines tokenized so far are linked, and the next line may
  start with the stack that they lead to.
-/
structure Woven (marked : Bool) (d : TokenizedDocument) : Prop where
  continues :
    d.nextStack.Continues marked d.grammar
      (Tokens.lastBefore? d.tokensIn d.tokenized.size)
  linked :
    ∀ line < d.tokenized.size,
      Tokens.Linked (CommentLink marked (d.lines.getD line []))
        (Tokens.lastBefore? d.tokensIn line) (d.tokensIn line).reverse

/- A document without tokens. -/
theorem woven_create
    (grammar : Grammar)
    (document : Document)
    (maxLength : Nat) :
    (create grammar document maxLength).Woven marked where
  continues := RuleStack.continues_empty
  linked := by
    intro line hLine
    exact absurd hLine (Nat.not_lt_zero line)

/- The tokens of one more line are linked. -/
theorem woven_advance
    {text : Bytes}
    (hNeat : d.grammar.Neat marked)
    (hPartitioned : d.Partitioned)
    (hWoven : d.Woven marked)
    (hLine : d.lines[d.tokenized.size]? = some text) :
    (d.advance text).Woven marked := by
  rcases exists_tokenizeLine_of_partitioned hPartitioned text with
    ⟨made, hTokenize, hMade, _, _⟩
  rcases linked_of_tokenizeLine? hNeat hWoven.continues hTokenize with
    ⟨hLinked, hContinues⟩
  have hTokenized :
      (d.advance text).tokenized = d.tokenized.push made := by
    rw [advance, hMade]
  have hOld :
      ∀ line < d.tokenized.size,
        (d.advance text).tokensIn line = d.tokensIn line := by
    intro line hLt
    unfold tokensIn
    rw [hTokenized, Array.getElem?_push_lt hLt,
      Array.getElem?_eq_getElem hLt]
  have hNew :
      (d.advance text).tokensIn d.tokenized.size = made.tokens := by
    unfold tokensIn
    rw [hTokenized, Array.getElem?_push_size]
  have hBefore :
      ∀ line ≤ d.tokenized.size,
        Tokens.lastBefore? (d.advance text).tokensIn line =
          Tokens.lastBefore? d.tokensIn line := by
    intro line hLe
    unfold Tokens.lastBefore?
    rw [Tokens.above_congr line
      (fun k hLt => hOld k (Nat.lt_of_lt_of_le hLt hLe))]
  constructor
  case continues =>
    have hStack : (d.advance text).nextStack = made.stack := by
      unfold nextStack
      rw [hTokenized, Array.back?_push]
    rw [hStack, hTokenized, Array.size_push, Tokens.lastBefore?_succ,
      hBefore _ (Nat.le_refl _), hNew]
    exact hContinues
  case linked =>
    intro line hLt
    rw [hTokenized, Array.size_push] at hLt
    rw [hBefore line (Nat.le_of_lt_succ hLt)]
    rcases Nat.lt_succ_iff_lt_or_eq.mp hLt with hEarlier | rfl
    · rw [hOld line hEarlier]
      exact hWoven.linked line hEarlier
    · have hText :
          (d.advance text).lines.getD d.tokenized.size [] = text := by
        change d.lines.getD d.tokenized.size [] = text
        rw [Array.getD_eq_getD_getElem?, hLine]
        rfl
      rw [hNew, hText]
      exact hLinked

/- The tokens of more lines are linked. -/
theorem woven_extend
    (n : Nat) :
    ∀ {d : TokenizedDocument},
      d.grammar.Neat marked →
        d.Partitioned → d.Woven marked → (d.extend n).Woven marked := by
  induction n with
  | zero =>
      intro d _ _ hWoven
      exact hWoven
  | succ n ih =>
      intro d hNeat hPartitioned hWoven
      cases hLine : d.lines[d.tokenized.size]? with
      | none =>
          rw [extend_of_done (Array.getElem?_eq_none_iff.mp hLine)]
          exact hWoven
      | some text =>
          rw [extend_of_line hLine]
          exact
            ih hNeat (partitioned_advance hPartitioned hLine)
              (woven_advance hNeat hPartitioned hWoven hLine)

/- The tokens of a fresh document are linked. -/
theorem woven_tokensAt
    (hNeat : d.grammar.Neat marked)
    (hFresh : Fresh d)
    (hPartitioned : d.Partitioned)
    (hWoven : d.Woven marked) :
    Tokens.Woven marked d.lines d.tokensAt := by
  have hAll :=
    (woven_extend d.lines.size hNeat hPartitioned hWoven).linked
  rw [lines_extend, size_extend_of_fresh hFresh, Nat.min_self,
    ← tokensAt_eq_tokensIn hFresh] at hAll
  exact hAll

/-
  With a neat grammar a comment that is looked up at its start is
  found again, with all that there is to it, if it is a line
  comment or block comments are marked.  How much of the document
  is tokenized before either lookup makes no difference.
-/
theorem lookup_start_of_neat
    {grammar : Grammar}
    {document : Document}
    {maxLength n : Nat}
    {settings : MergeSettings}
    {position : Position}
    {block : CommentBlock}
    (hNeat : grammar.Neat marked)
    (hFound :
      (answer
            (CommentLookup.compute
              (create grammar document maxLength).lines settings position)
            ((create grammar document maxLength).extend n)).1 =
        .found block)
    (hKind : block.isLineComment = true ∨ marked = true)
    (k : Nat) :
    (answer
          (CommentLookup.compute
            (create grammar document maxLength).lines settings
            block.range.start)
          ((create grammar document maxLength).extend k)).1 =
      .found block := by
  have hFresh := fresh_create grammar document maxLength
  have hPartitioned := partitioned_create grammar document maxLength
  have hTokens := partitioned_tokensAt hFresh hPartitioned
  have hWoven :=
    woven_tokensAt hNeat hFresh hPartitioned
      (woven_create grammar document maxLength)
  have hMarked :
      block.isLineComment = false →
        Tokens.Marked (create grammar document maxLength).lines
          (create grammar document maxLength).tokensAt := by
    intro hBlock
    rcases hKind with hLine | rfl
    · rw [hBlock] at hLine
      cases hLine
    · exact Tokens.marked_of_woven hTokens hWoven
  rcases
      answer_extend hFresh
        (CommentLookup.compute (create grammar document maxLength).lines
          settings position)
        n with
    ⟨_, hFirst⟩
  rcases
      answer_extend hFresh
        (CommentLookup.compute (create grammar document maxLength).lines
          settings block.range.start)
        k with
    ⟨_, hSecond⟩
  rw [hFirst] at hFound
  rw [hSecond]
  exact
    CommentLookup.eval_compute_start hTokens
      (Tokens.tidy_of_woven hTokens hWoven) hFound hMarked

end TokenizedDocument

end Marginalia

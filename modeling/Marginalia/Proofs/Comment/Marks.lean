import Mathlib.Data.List.Forall2
import Mathlib.Data.List.TakeWhile
import Marginalia.Proofs.Comment.Visible
import Marginalia.Proofs.Text.Characters

/-
  This file says what a comment loses when its marks are taken
  away.  The parts of a comment are told apart by their bytes
  alone: the blanks in front, the mark, and what stands behind
  it.  In place of a mark there are as many spaces, so all else
  stays in its column.

  A mark is as long as it can be, and it is what the comment
  begins with, or ends with, once blanks are passed over.  So the
  parts of a comment say which of its bytes give way.

  Key definitions include:
    * `Marker.Cleared`, `Marker.Preserves`
    * `Marker.LineMark`, `Marker.OpenMark`, `Marker.CloseMark`
    * `Marker.LineParts`, `Marker.BlockParts`
    * `Marker.StarCleared`
  The main statements are:
    * `Marker.preserves_of_cleared`
    * `Marker.exists_lineParts`
    * `Marker.exists_blockParts`
    * `Marker.exists_lines_stripBlock`
-/

namespace Marginalia

namespace Marker

------------------------------------------------------------
-- Cleared Texts
------------------------------------------------------------

/- The bytes of a line comment that may give way to spaces. -/
def lineBytes : Bytes :=
  [Ascii.tab, Ascii.slash, Ascii.bang, Ascii.hash, Ascii.percent,
    Ascii.semicolon, Ascii.minus]

/- The bytes of a block comment that may give way to spaces. -/
def blockBytes : Bytes :=
  [Ascii.less, Ascii.bang, Ascii.minus, Ascii.greater, Ascii.slash,
    Ascii.star, Ascii.lbrace, Ascii.rbrace]

/- As many spaces as a text has bytes. -/
def spaces (s : Bytes) : Bytes :=
  List.replicate s.length Ascii.space

/-
  Each byte of the first text stands in the second one, or else
  it is one of some bytes, and a space stands there.
-/
def Cleared (bytes : Bytes) : Bytes → Bytes → Prop :=
  List.Forall₂ (fun b c => c = b ∨ b ∈ bytes ∧ c = Ascii.space)

/-
  What a text keeps when some bytes of it give way to spaces: its
  length, all other bytes, and its line ends, of which there are
  no new ones either.
-/
structure Preserves (bytes s t : Bytes) : Prop where
  length_eq : t.length = s.length
  same_or_space :
    ∀ {i : Nat} {b : UInt8},
      s[i]? = some b → t[i]? = some b ∨ t[i]? = some Ascii.space
  same :
    ∀ {i : Nat} {b : UInt8},
      s[i]? = some b → b ∉ bytes → t[i]? = some b
  lineEnd_iff :
    ∀ {i : Nat} {b : UInt8},
      b = Ascii.lf ∨ b = Ascii.cr → (t[i]? = some b ↔ s[i]? = some b)

variable {bytes s t u : Bytes}

@[simp]
theorem length_spaces
    (s : Bytes) :
    (spaces s).length = s.length :=
  List.length_replicate

@[simp]
theorem spaces_nil : spaces [] = [] :=
  rfl

@[simp]
theorem spaces_cons
    (b : UInt8)
    (s : Bytes) :
    spaces (b :: s) = Ascii.space :: spaces s :=
  rfl

theorem spaces_append
    (s t : Bytes) :
    spaces (s ++ t) = spaces s ++ spaces t := by
  unfold spaces
  rw [List.length_append, List.replicate_add]

theorem reverse_spaces
    (s : Bytes) :
    (spaces s.reverse).reverse = spaces s := by
  unfold spaces
  rw [List.reverse_replicate, List.length_reverse]

/- Spaces are blanks. -/
theorem isBlank_of_mem_spaces
    {b : UInt8}
    (hByte : b ∈ spaces s) :
    Ascii.isBlank b = true := by
  rw [List.eq_of_mem_replicate hByte]
  rfl

/- Nothing has to give way. -/
theorem cleared_refl
    (bytes s : Bytes) :
    Cleared bytes s s :=
  List.forall₂_same.mpr (fun _ _ => Or.inl rfl)

/- Texts that stand one behind the other are cleared each on its own. -/
theorem cleared_append
    {s' t' : Bytes}
    (hFirst : Cleared bytes s t)
    (hSecond : Cleared bytes s' t') :
    Cleared bytes (s ++ s') (t ++ t') :=
  List.rel_append hFirst hSecond

/- A text may be cleared in two steps. -/
theorem cleared_trans
    (hFirst : Cleared bytes s t)
    (hSecond : Cleared bytes t u) :
    Cleared bytes s u := by
  induction hFirst generalizing u with
  | nil => exact hSecond
  | cons hByte _ ih =>
      cases hSecond with
      | cons hNext hRest =>
          refine List.Forall₂.cons ?_ (ih hRest)
          rcases hNext with rfl | ⟨hIn, rfl⟩
          · exact hByte
          · rcases hByte with rfl | ⟨hFirst, _⟩
            · exact Or.inr ⟨hIn, rfl⟩
            · exact Or.inr ⟨hFirst, rfl⟩

/- A text of such bytes and of spaces may be cleared as a whole. -/
theorem cleared_spaces
    (hBytes : ∀ b ∈ s, b = Ascii.space ∨ b ∈ bytes) :
    Cleared bytes s (spaces s) := by
  induction s with
  | nil => exact List.Forall₂.nil
  | cons b s ih =>
      rw [List.forall_mem_cons] at hBytes
      refine List.Forall₂.cons ?_ (ih hBytes.2)
      rcases hBytes.1 with hSpace | hIn
      · exact Or.inl hSpace.symm
      · exact Or.inr ⟨hIn, rfl⟩

/- Joined texts are cleared each on its own. -/
theorem cleared_join
    {lines others : List Bytes}
    (separator : Bytes)
    (hLines : List.Forall₂ (Cleared bytes) lines others) :
    Cleared bytes (Bytes.join separator lines)
      (Bytes.join separator others) := by
  induction hLines with
  | nil => exact cleared_refl _ _
  | cons hLine hLines ih =>
      cases hLines with
      | nil => exact hLine
      | cons _ _ =>
          exact
            cleared_append (cleared_append hLine (cleared_refl _ _)) ih

/- No line end is among the bytes. -/
theorem ne_lineEnd_of_mem
    {b : UInt8}
    (hLf : Ascii.lf ∉ bytes)
    (hCr : Ascii.cr ∉ bytes)
    (hByte : b ∈ bytes) :
    b ≠ Ascii.lf ∧ b ≠ Ascii.cr :=
  ⟨ne_of_mem_of_not_mem hByte hLf, ne_of_mem_of_not_mem hByte hCr⟩

/- What stands in the place of a byte. -/
theorem exists_of_cleared
    {i : Nat}
    {b : UInt8}
    (hCleared : Cleared bytes s t)
    (hByte : s[i]? = some b) :
    ∃ c, t[i]? = some c ∧ (c = b ∨ b ∈ bytes ∧ c = Ascii.space) := by
  induction hCleared generalizing i with
  | nil => cases hByte
  | cons hFirst _ ih =>
      cases i with
      | zero =>
          cases hByte
          exact ⟨_, rfl, hFirst⟩
      | succ i => exact ih hByte

/- A cleared text keeps all else if no line end may give way. -/
theorem preserves_of_cleared
    (hLf : Ascii.lf ∉ bytes)
    (hCr : Ascii.cr ∉ bytes)
    (hCleared : Cleared bytes s t) :
    Preserves bytes s t where
  length_eq := hCleared.length_eq.symm
  same_or_space := by
    intro i b hByte
    rcases exists_of_cleared hCleared hByte with
      ⟨c, hThere, rfl | ⟨_, rfl⟩⟩
    · exact Or.inl hThere
    · exact Or.inr hThere
  same := by
    intro i b hByte hNot
    rcases exists_of_cleared hCleared hByte with
      ⟨c, hThere, rfl | ⟨hIn, _⟩⟩
    · exact hThere
    · exact absurd hIn hNot
  lineEnd_iff := by
    intro i b hEnd
    have hStays : b ∉ bytes := by
      rcases hEnd with rfl | rfl
      · exact hLf
      · exact hCr
    constructor
    · intro hThere
      have hInside : i < s.length := by
        rw [hCleared.length_eq]
        exact (List.getElem?_eq_some_iff.mp hThere).1
      have hByte := List.getElem?_eq_getElem hInside
      rcases exists_of_cleared hCleared hByte with
        ⟨c, hSame, rfl | ⟨_, rfl⟩⟩
      · rw [← hThere, hSame, hByte]
      · -- A space is no line end.
        rw [hSame, Option.some.injEq] at hThere
        subst hThere
        rcases hEnd with hSpace | hSpace <;> cases hSpace
    · intro hByte
      rcases exists_of_cleared hCleared hByte with
        ⟨c, hSame, rfl | ⟨hIn, _⟩⟩
      · exact hSame
      · exact absurd hIn hStays

------------------------------------------------------------
-- Marks of Line Comments
------------------------------------------------------------

/- What the marks of line comments begin with. -/
def lineStarts : List Bytes :=
  [[Ascii.slash, Ascii.slash], [Ascii.hash], [Ascii.percent],
    [Ascii.semicolon], [Ascii.minus, Ascii.minus]]

/-
  The mark that a line comment begins with, and what stands
  behind it.  The mark goes on as long as its bytes repeat, and
  it is empty only if the text begins with none.
-/
inductive LineMark : Bytes → Bytes → Prop
| slashes {run rest : Bytes}
    (hRun : ∀ b ∈ run, b = Ascii.slash ∨ b = Ascii.bang)
    (hRest : ∀ b ∈ rest.head?, b ≠ Ascii.slash ∧ b ≠ Ascii.bang) :
    LineMark ([Ascii.slash, Ascii.slash] ++ run) rest
| hashes {rest : Bytes}
    (n : Nat)
    (hRest : ∀ b ∈ rest.head?, b ≠ Ascii.hash ∧ b ≠ Ascii.bang) :
    LineMark (List.replicate (n + 1) Ascii.hash) rest
| hashBang
    (n : Nat)
    (rest : Bytes) :
    LineMark (List.replicate (n + 1) Ascii.hash ++ [Ascii.bang]) rest
| row {b : UInt8} {rest : Bytes}
    (hByte : b = Ascii.percent ∨ b = Ascii.semicolon)
    (n : Nat)
    (hRest : ∀ c ∈ rest.head?, c ≠ b) :
    LineMark (List.replicate (n + 1) b) rest
| dashes {rest : Bytes}
    (n : Nat)
    (hRest : ∀ b ∈ rest.head?, b ≠ Ascii.minus) :
    LineMark (List.replicate (n + 2) Ascii.minus) rest
| none {rest : Bytes}
    (hNone : ∀ start ∈ lineStarts, ¬ start <+: rest) :
    LineMark [] rest

/- The first byte that is not dropped fails the test. -/
theorem head?_dropWhile_of_mem
    {p : UInt8 → Bool}
    {b : UInt8}
    (hHead : b ∈ (s.dropWhile p).head?) :
    p b = false := by
  have hNot := List.head?_dropWhile_not p s
  rw [hHead] at hNot
  exact hNot

/- The run of a byte that a text begins with, and what follows it. -/
theorem exists_run
    (b : UInt8)
    (s : Bytes) :
    ∃ n rest,
      s = List.replicate n b ++ rest ∧
        runLength b s = n ∧ ∀ c ∈ rest.head?, c ≠ b := by
  have hRun : s.takeWhile (· == b) = List.replicate (runLength b s) b :=
    List.eq_replicate_of_mem
      (fun c hByte =>
        beq_iff_eq.mp (List.mem_takeWhile_imp (p := (· == b)) hByte))
  refine ⟨_, s.dropWhile (· == b), ?_, rfl, ?_⟩
  · rw [← hRun, List.takeWhile_append_dropWhile]
  · intro c hHead
    exact
      beq_eq_false_iff_ne.mp
        (head?_dropWhile_of_mem (p := (· == b)) hHead)

/- The mark of a line comment is as long as it can be. -/
theorem exists_lineMark
    (s : Bytes) :
    ∃ mark rest,
      s = mark ++ rest ∧
        lineMark s = mark.length ∧ LineMark mark rest := by
  fun_cases lineMark s with
  | case1 rest =>
      refine
        ⟨[Ascii.slash, Ascii.slash] ++
            rest.takeWhile (fun b => b == Ascii.slash || b == Ascii.bang),
          rest.dropWhile (fun b => b == Ascii.slash || b == Ascii.bang),
          by simp, by simp; omega, .slashes ?_ ?_⟩
      · intro b hByte
        simpa using List.mem_takeWhile_imp hByte
      · intro b hHead
        simpa using head?_dropWhile_of_mem hHead
  | case2 rest length tail hBang =>
      rcases exists_run Ascii.hash rest with
        ⟨n, more, rfl, hLength, _⟩
      rw [Nat.add_sub_cancel_left, hLength,
        List.drop_left' List.length_replicate] at hBang
      have hSize : length = 1 + n := congrArg (1 + ·) hLength
      subst hBang
      exact
        ⟨List.replicate (n + 1) Ascii.hash ++ [Ascii.bang], tail,
          by simp [List.replicate_succ], by rw [hSize]; simp; omega,
          .hashBang n tail⟩
  | case3 rest length hNoBang =>
      rcases exists_run Ascii.hash rest with
        ⟨n, more, rfl, hLength, hMore⟩
      rw [Nat.add_sub_cancel_left, hLength,
        List.drop_left' List.length_replicate] at hNoBang
      refine
        ⟨List.replicate (n + 1) Ascii.hash, more, rfl,
          by simp [length, hLength]; omega, .hashes n ?_⟩
      intro b hHead
      refine ⟨hMore b hHead, ?_⟩
      rintro rfl
      rcases List.head?_eq_some_iff.mp hHead with ⟨tail, hTail⟩
      exact hNoBang tail hTail
  | case4 rest =>
      rcases exists_run Ascii.percent rest with
        ⟨n, more, rfl, hLength, hMore⟩
      exact
        ⟨List.replicate (n + 1) Ascii.percent, more, rfl,
          by simp [hLength]; omega, .row (Or.inl rfl) n hMore⟩
  | case5 rest =>
      rcases exists_run Ascii.semicolon rest with
        ⟨n, more, rfl, hLength, hMore⟩
      exact
        ⟨List.replicate (n + 1) Ascii.semicolon, more, rfl,
          by simp [hLength]; omega, .row (Or.inr rfl) n hMore⟩
  | case6 rest =>
      rcases exists_run Ascii.minus rest with
        ⟨n, more, rfl, hLength, hMore⟩
      exact
        ⟨List.replicate (n + 2) Ascii.minus, more, rfl,
          by simp [hLength]; omega, .dashes n hMore⟩
  | case7 s hNoSlash hNoHash hNoPercent hNoSemicolon hNoMinus =>
      refine ⟨[], s, rfl, rfl, .none ?_⟩
      rintro start hStart ⟨rest, rfl⟩
      simp only [lineStarts, List.mem_cons, List.not_mem_nil, or_false]
        at hStart
      rcases hStart with rfl | rfl | rfl | rfl | rfl
      · exact hNoSlash rest rfl
      · exact hNoHash rest rfl
      · exact hNoPercent rest rfl
      · exact hNoSemicolon rest rfl
      · exact hNoMinus rest rfl

/- The mark of a line comment is made of bytes that may give way. -/
theorem mem_lineBytes_of_lineMark
    {mark rest : Bytes}
    {b : UInt8}
    (hMark : LineMark mark rest)
    (hByte : b ∈ mark) :
    b ∈ lineBytes := by
  cases hMark with
  | slashes hRun _ =>
      rcases List.mem_append.mp hByte with hStart | hLater
      · simp only [List.mem_cons, List.not_mem_nil, or_false,
          or_self] at hStart
        rw [hStart]
        decide
      · rcases hRun b hLater with rfl | rfl <;> decide
  | hashes n _ =>
      rw [List.eq_of_mem_replicate hByte]
      decide
  | hashBang n _ =>
      rcases List.mem_append.mp hByte with hRun | hBang
      · rw [List.eq_of_mem_replicate hRun]
        decide
      · rw [List.mem_singleton.mp hBang]
        decide
  | row hRow n _ =>
      rw [List.eq_of_mem_replicate hByte]
      rcases hRow with rfl | rfl <;> decide
  | dashes n _ =>
      rw [List.eq_of_mem_replicate hByte]
      decide
  | none _ => cases hByte

------------------------------------------------------------
-- Marks of Block Comments
------------------------------------------------------------

/- What the marks in front of block comments begin with. -/
def markupOpen : Bytes :=
  [Ascii.less, Ascii.bang, Ascii.minus, Ascii.minus]

def starOpen : Bytes :=
  [Ascii.slash, Ascii.star]

def braceOpen : Bytes :=
  [Ascii.lbrace, Ascii.minus]

def openStarts : List Bytes :=
  [markupOpen, starOpen, braceOpen]

/- What the marks behind block comments end with. -/
def markupClose : Bytes :=
  [Ascii.minus, Ascii.minus, Ascii.greater]

def starClose : Bytes :=
  [Ascii.star, Ascii.slash]

def braceClose : Bytes :=
  [Ascii.minus, Ascii.rbrace]

def closeStops : List Bytes :=
  [markupClose, starClose, braceClose]

/-
  The mark that a block comment begins with, and what stands
  behind it.  A run of dashes or of stars belongs to the mark.
-/
inductive OpenMark : Bytes → Bytes → Prop
| markup {rest : Bytes}
    (n : Nat)
    (hRest : ∀ b ∈ rest.head?, b ≠ Ascii.minus) :
    OpenMark (markupOpen ++ List.replicate n Ascii.minus) rest
| star {rest : Bytes}
    (n : Nat)
    (hRest : ∀ b ∈ rest.head?, b ≠ Ascii.star) :
    OpenMark (starOpen ++ List.replicate n Ascii.star) rest
| brace (rest : Bytes) :
    OpenMark braceOpen rest
| none {rest : Bytes}
    (hNone : ∀ start ∈ openStarts, ¬ start <+: rest) :
    OpenMark [] rest

/-
  What stands in front of the mark that a block comment ends with,
  and the mark.  A run of dashes or of stars belongs to the mark.
-/
inductive CloseMark : Bytes → Bytes → Prop
| markup {front : Bytes}
    (n : Nat)
    (hFront : ∀ b ∈ front.getLast?, b ≠ Ascii.minus) :
    CloseMark front (List.replicate n Ascii.minus ++ markupClose)
| star {front : Bytes}
    (n : Nat)
    (hFront : ∀ b ∈ front.getLast?, b ≠ Ascii.star) :
    CloseMark front (List.replicate n Ascii.star ++ starClose)
| brace (front : Bytes) :
    CloseMark front braceClose
| none {front : Bytes}
    (hNone : ∀ stop ∈ closeStops, ¬ stop <:+ front) :
    CloseMark front []

/- The mark that a block comment begins with is as long as it can be. -/
theorem exists_openMark
    (s : Bytes) :
    ∃ mark rest,
      s = mark ++ rest ∧
        openMark s = mark.length ∧ OpenMark mark rest := by
  fun_cases openMark s with
  | case1 rest =>
      rcases exists_run Ascii.minus rest with
        ⟨n, more, rfl, hLength, hMore⟩
      exact
        ⟨markupOpen ++ List.replicate n Ascii.minus, more, rfl,
          by simp [markupOpen, hLength]; omega, .markup n hMore⟩
  | case2 rest =>
      rcases exists_run Ascii.star rest with
        ⟨n, more, rfl, hLength, hMore⟩
      exact
        ⟨starOpen ++ List.replicate n Ascii.star, more, rfl,
          by simp [starOpen, hLength]; omega, .star n hMore⟩
  | case3 rest => exact ⟨braceOpen, rest, rfl, rfl, .brace rest⟩
  | case4 s hNoMarkup hNoStar hNoBrace =>
      refine ⟨[], s, rfl, rfl, .none ?_⟩
      rintro start hStart ⟨rest, rfl⟩
      simp only [openStarts, List.mem_cons, List.not_mem_nil, or_false]
        at hStart
      rcases hStart with rfl | rfl | rfl
      · exact hNoMarkup rest rfl
      · exact hNoStar rest rfl
      · exact hNoBrace rest rfl

/- So is the mark that it ends with. -/
theorem exists_closeMark
    (s : Bytes) :
    ∃ front mark,
      s.reverse = front ++ mark ∧
        closeMarkReversed s = mark.length ∧ CloseMark front mark := by
  fun_cases closeMarkReversed s with
  | case1 rest =>
      rcases exists_run Ascii.minus rest with
        ⟨n, more, rfl, hLength, hMore⟩
      refine
        ⟨more.reverse, List.replicate n Ascii.minus ++ markupClose,
          by simp [markupClose], by simp [markupClose, hLength]; omega,
          .markup n ?_⟩
      rwa [List.getLast?_reverse]
  | case2 rest =>
      rcases exists_run Ascii.star rest with
        ⟨n, more, rfl, hLength, hMore⟩
      refine
        ⟨more.reverse, List.replicate n Ascii.star ++ starClose,
          by simp [starClose], by simp [starClose, hLength]; omega,
          .star n ?_⟩
      rwa [List.getLast?_reverse]
  | case3 rest =>
      exact
        ⟨rest.reverse, braceClose, by simp [braceClose], rfl,
          .brace rest.reverse⟩
  | case4 s hNoMarkup hNoStar hNoBrace =>
      refine ⟨s.reverse, [], (List.append_nil _).symm, rfl, .none ?_⟩
      intro stop hStop hSuffix
      rw [← List.reverse_prefix, List.reverse_reverse] at hSuffix
      rcases hSuffix with ⟨rest, rfl⟩
      simp only [closeStops, List.mem_cons, List.not_mem_nil, or_false]
        at hStop
      rcases hStop with rfl | rfl | rfl
      · exact hNoMarkup rest rfl
      · exact hNoStar rest rfl
      · exact hNoBrace rest rfl

/- What the marks begin or end with is made of few bytes. -/
theorem mem_blockBytes_of_mem :
    ∀ text ∈ openStarts ++ closeStops, ∀ b ∈ text, b ∈ blockBytes := by
  have hAll :
      (openStarts ++ closeStops).all
        (fun text => text.all (blockBytes.contains ·)) = true := by
    decide
  simpa only [List.all_eq_true, List.contains_iff_mem] using hAll

/- The mark in front is made of bytes that may give way. -/
theorem mem_blockBytes_of_openMark
    {mark rest : Bytes}
    {b : UInt8}
    (hMark : OpenMark mark rest)
    (hByte : b ∈ mark) :
    b ∈ blockBytes := by
  cases hMark with
  | markup n _ | star n _ =>
      rcases List.mem_append.mp hByte with hStart | hRun
      · exact mem_blockBytes_of_mem _ (by decide) b hStart
      · rw [List.eq_of_mem_replicate hRun]
        decide
  | brace => exact mem_blockBytes_of_mem _ (by decide) b hByte
  | none _ => cases hByte

/- So is the mark behind. -/
theorem mem_blockBytes_of_closeMark
    {front mark : Bytes}
    {b : UInt8}
    (hMark : CloseMark front mark)
    (hByte : b ∈ mark) :
    b ∈ blockBytes := by
  cases hMark with
  | markup n _ | star n _ =>
      rcases List.mem_append.mp hByte with hRun | hStop
      · rw [List.eq_of_mem_replicate hRun]
        decide
      · exact mem_blockBytes_of_mem _ (by decide) b hStop
  | brace => exact mem_blockBytes_of_mem _ (by decide) b hByte
  | none _ => cases hByte

/- No blank gives way. -/
theorem isBlank_of_mem_blockBytes :
    ∀ b ∈ blockBytes, Ascii.isBlank b = false := by
  have hAll : blockBytes.all (fun b => !Ascii.isBlank b) = true := by
    decide
  simpa only [List.all_eq_true, Bool.not_eq_true'] using hAll

/- A text without blanks at the end begins behind the blanks in front. -/
theorem exists_of_append_eq
    {front core before text : Bytes}
    (hFront : ∀ b ∈ front, Ascii.isBlank b = true)
    (hText : ∀ b ∈ text, Ascii.isBlank b = false)
    (hSame : front ++ core = before ++ text) :
    ∃ body, core = body ++ text ∧ before = front ++ body := by
  rcases List.append_eq_append_iff.mp hSame with
    ⟨body, hBefore, hCore⟩ | ⟨more, hBlank, hMore⟩
  · exact ⟨body, hCore, hBefore⟩
  · cases more with
    | nil =>
        exact ⟨[], by simpa using hMore.symm, by simpa using hBlank.symm⟩
    | cons b more =>
        have hNot := hText b (by simp [hMore])
        rw [hFront b (by simp [hBlank])] at hNot
        cases hNot

/- Blanks in front of the whole do not lengthen the mark behind it. -/
theorem closeMark_append_iff
    {front body mark : Bytes}
    (hFront : ∀ b ∈ front, Ascii.isBlank b = true) :
    CloseMark (front ++ body) mark ↔ CloseMark body mark := by
  have hLast :
      ∀ b,
        Ascii.isBlank b = false →
          ((∀ c ∈ (front ++ body).getLast?, c ≠ b) ↔
            ∀ c ∈ body.getLast?, c ≠ b) := by
    intro b hByte
    by_cases hNil : body = []
    · rw [hNil, List.append_nil]
      refine iff_of_true ?_ (by simp)
      rintro c hEnd rfl
      rw [hFront c (List.mem_of_mem_getLast? hEnd)] at hByte
      cases hByte
    · rw [List.getLast?_append_of_ne_nil _ hNil]
  constructor
  · intro hMark
    cases hMark with
    | markup n hBody => exact .markup n ((hLast _ rfl).mp hBody)
    | star n hBody => exact .star n ((hLast _ rfl).mp hBody)
    | brace => exact .brace body
    | none hNone =>
        exact .none (fun stop hStop hSuffix =>
          hNone stop hStop
            (hSuffix.trans (List.suffix_append front body)))
  · intro hMark
    cases hMark with
    | markup n hBody => exact .markup n ((hLast _ rfl).mpr hBody)
    | star n hBody => exact .star n ((hLast _ rfl).mpr hBody)
    | brace => exact .brace (front ++ body)
    | none hNone =>
        refine .none ?_
        rintro stop hStop ⟨before, hSame⟩
        have hStopBytes : ∀ b ∈ stop, Ascii.isBlank b = false :=
          fun b hByte =>
            isBlank_of_mem_blockBytes b
              (mem_blockBytes_of_mem stop
                (List.mem_append_right _ hStop) b hByte)
        rcases exists_of_append_eq hFront hStopBytes hSame.symm with
          ⟨rest, hBody, _⟩
        exact hNone stop hStop ⟨rest, hBody.symm⟩

------------------------------------------------------------
-- Parts of Line Comments
------------------------------------------------------------

/-
  A line comment: the blanks in front, the mark, the spaces and
  tabs behind the mark, and the rest.
-/
structure LineParts (s : Bytes) where
  lead : Bytes
  mark : Bytes
  gap : Bytes
  rest : Bytes
  text_eq : s = lead ++ mark ++ gap ++ rest
  lead_blank : ∀ b ∈ lead, Ascii.isBlank b = true
  lead_ends : ∀ b ∈ (mark ++ gap ++ rest).head?, Ascii.isBlank b = false
  isMark : LineMark mark (gap ++ rest)
  gap_white : ∀ b ∈ gap, b = Ascii.space ∨ b = Ascii.tab
  gap_ends : ∀ b ∈ rest.head?, b ≠ Ascii.space ∧ b ≠ Ascii.tab

/- The comment with spaces for its mark and for what follows that. -/
def LineParts.cleared (parts : LineParts s) : Bytes :=
  parts.lead ++ spaces parts.mark ++ spaces parts.gap ++ parts.rest

/- Making all of a mark blank leaves the rest. -/
theorem blank_append
    (mark rest : Bytes) :
    blank mark.length (mark ++ rest) = spaces mark ++ rest := by
  unfold blank
  rw [List.drop_left]
  rfl

/- Flattening tabs makes the spaces and tabs in front spaces. -/
theorem flattenTabs_append
    {gap rest : Bytes}
    (hGap : ∀ b ∈ gap, b = Ascii.space ∨ b = Ascii.tab)
    (hRest : ∀ b ∈ rest.head?, b ≠ Ascii.space ∧ b ≠ Ascii.tab) :
    flattenTabs (gap ++ rest) = spaces gap ++ rest := by
  induction gap with
  | nil =>
      cases rest with
      | nil => rfl
      | cons b rest =>
          rw [List.nil_append, flattenTabs,
            if_neg (not_or.mpr (hRest b rfl))]
          rfl
  | cons b gap ih =>
      rw [List.forall_mem_cons] at hGap
      rw [List.cons_append, flattenTabs, if_pos hGap.1, ih hGap.2]
      rfl

/- The spaces and tabs that a text begins with, and what follows. -/
theorem exists_gap
    (s : Bytes) :
    ∃ gap rest,
      s = gap ++ rest ∧
        (∀ b ∈ gap, b = Ascii.space ∨ b = Ascii.tab) ∧
          ∀ b ∈ rest.head?, b ≠ Ascii.space ∧ b ≠ Ascii.tab := by
  refine
    ⟨s.takeWhile (fun b => b == Ascii.space || b == Ascii.tab),
      s.dropWhile (fun b => b == Ascii.space || b == Ascii.tab),
      List.takeWhile_append_dropWhile.symm, ?_, ?_⟩
  · intro b hByte
    simpa using List.mem_takeWhile_imp hByte
  · intro b hHead
    simpa using head?_dropWhile_of_mem hHead

/-
  Every text has these parts, and taking the mark of a line
  comment away clears two of them.
-/
theorem exists_lineParts
    (s : Bytes) :
    ∃ parts : LineParts s, stripLine s = parts.cleared := by
  rcases exists_lineMark (s.dropWhile Ascii.isBlank) with
    ⟨mark, behind, hDrop, hLength, hMark⟩
  rcases exists_gap behind with ⟨gap, rest, rfl, hGap, hRest⟩
  have hText : s = s.takeWhile Ascii.isBlank ++ mark ++ gap ++ rest := by
    rw [List.append_assoc, List.append_assoc, ← hDrop,
      List.takeWhile_append_dropWhile]
  have hEnds :
      ∀ b ∈ (mark ++ gap ++ rest).head?, Ascii.isBlank b = false := by
    rw [List.append_assoc, ← hDrop]
    exact Bytes.head?_dropWhile_isBlank s
  have hStrip :
      stripLine s =
        s.takeWhile Ascii.isBlank ++ spaces mark ++ spaces gap ++
          rest := by
    unfold stripLine
    dsimp only
    rw [hLength, hDrop, List.drop_left, flattenTabs_append hGap hRest,
      ← List.append_assoc]
    rfl
  exact
    ⟨⟨_, mark, gap, rest, hText,
        fun _ hByte => List.mem_takeWhile_imp hByte, hEnds, hMark, hGap,
        hRest⟩,
      hStrip⟩

/- Only bytes that may give way do so. -/
theorem cleared_lineParts
    (parts : LineParts s) :
    Cleared lineBytes s parts.cleared := by
  conv => arg 2; rw [parts.text_eq]
  have hMark : Cleared lineBytes parts.mark (spaces parts.mark) :=
    cleared_spaces (fun b hByte =>
      Or.inr (mem_lineBytes_of_lineMark parts.isMark hByte))
  have hGap : Cleared lineBytes parts.gap (spaces parts.gap) := by
    refine cleared_spaces (fun b hByte => ?_)
    refine (parts.gap_white b hByte).imp_right ?_
    rintro rfl
    decide
  exact
    cleared_append
      (cleared_append (cleared_append (cleared_refl _ _) hMark) hGap)
      (cleared_refl _ _)

------------------------------------------------------------
-- Parts of Block Comments
------------------------------------------------------------

/-
  A block comment: the blanks in front, the mark that it begins
  with, the body, the mark that it ends with, and the blanks
  behind.  The marks do not overlap; the first one is as long as
  it can be, and the second one takes what is left.
-/
structure BlockParts (s : Bytes) where
  lead : Bytes
  opening : Bytes
  body : Bytes
  closing : Bytes
  trail : Bytes
  text_eq : s = lead ++ opening ++ body ++ closing ++ trail
  lead_blank : ∀ b ∈ lead, Ascii.isBlank b = true
  lead_ends :
    ∀ b ∈ (opening ++ body ++ closing ++ trail).head?,
      Ascii.isBlank b = false
  isOpen : OpenMark opening (body ++ closing ++ trail)
  isClose : CloseMark body closing
  trail_blank : ∀ b ∈ trail, Ascii.isBlank b = true
  trail_ends : ∀ b ∈ (body ++ closing).getLast?, Ascii.isBlank b = false

/- The comment with spaces for its two marks. -/
def BlockParts.cleared (parts : BlockParts s) : Bytes :=
  parts.lead ++ spaces parts.opening ++ parts.body ++
    spaces parts.closing ++ parts.trail

/- The blanks that a text ends with, and what stands in front of them. -/
theorem exists_trail
    (s : Bytes) :
    ∃ core trail,
      s = core ++ trail ∧
        (∀ b ∈ trail, Ascii.isBlank b = true) ∧
          ∀ b ∈ core.getLast?, Ascii.isBlank b = false := by
  refine
    ⟨(s.reverse.dropWhile Ascii.isBlank).reverse,
      (s.reverse.takeWhile Ascii.isBlank).reverse, ?_, ?_, ?_⟩
  · rw [← List.reverse_append, List.takeWhile_append_dropWhile,
      List.reverse_reverse]
  · intro b hByte
    exact List.mem_takeWhile_imp (List.mem_reverse.mp hByte)
  · rw [List.getLast?_reverse]
    exact Bytes.head?_dropWhile_isBlank s.reverse

/- A mark is looked for behind the blanks in front. -/
theorem blankAfterLead_append
    {lead rest : Bytes}
    (mark : Bytes → Nat)
    (hLead : ∀ b ∈ lead, Ascii.isBlank b = true)
    (hRest : ∀ b ∈ rest.head?, Ascii.isBlank b = false) :
    blankAfterLead mark (lead ++ rest) =
      lead ++ blank (mark rest) rest := by
  have hNone :
      rest.takeWhile Ascii.isBlank = [] ∧
        rest.dropWhile Ascii.isBlank = rest := by
    cases rest with
    | nil => exact ⟨rfl, rfl⟩
    | cons b rest =>
        rw [List.takeWhile_cons, List.dropWhile_cons, hRest b rfl]
        exact ⟨rfl, rfl⟩
  unfold blankAfterLead
  dsimp only
  rw [List.takeWhile_append_of_pos hLead,
    List.dropWhile_append_of_pos hLead, hNone.1, hNone.2,
    List.append_nil]

/- A text of blanks has no mark. -/
theorem blankAfterLead_of_blank
    {mark : Bytes → Nat}
    (hNone : mark [] = 0)
    (hBlank : ∀ b ∈ s, Ascii.isBlank b = true) :
    blankAfterLead mark s = s := by
  have hRest : ∀ b ∈ ([] : Bytes).head?, Ascii.isBlank b = false := by
    simp
  have hAll := blankAfterLead_append mark hBlank hRest
  rwa [hNone, List.append_nil, blank, List.replicate_zero,
    List.nil_append, List.drop_nil, List.append_nil] at hAll

/- A mark at the end, read backwards, is made blank. -/
theorem reverse_blank
    (front mark : Bytes) :
    (blank mark.length (front ++ mark).reverse).reverse =
      front ++ spaces mark := by
  rw [List.reverse_append, ← List.length_reverse, blank_append,
    List.reverse_append, List.reverse_reverse, reverse_spaces]

/-
  What stands behind blanks has a body, a mark, and blanks at the
  end; the mark is made blank.
-/
theorem exists_closed
    {front : Bytes}
    (hFront : ∀ b ∈ front, Ascii.isBlank b = true)
    (s : Bytes) :
    ∃ body closing trail,
      s = body ++ closing ++ trail ∧
        CloseMark body closing ∧
          (∀ b ∈ trail, Ascii.isBlank b = true) ∧
            (∀ b ∈ (body ++ closing).getLast?,
              Ascii.isBlank b = false) ∧
              (blankAfterLead closeMarkReversed
                  (front ++ s).reverse).reverse =
                front ++ body ++ spaces closing ++ trail := by
  rcases exists_trail s with ⟨core, trail, rfl, hTrail, hCore⟩
  by_cases hNil : core = []
  · -- Nothing but blanks is left, and there is no mark among them.
    subst hNil
    refine ⟨[], [], trail, rfl, .none (by decide), hTrail, hCore, ?_⟩
    rw [blankAfterLead_of_blank rfl, List.reverse_reverse]
    · simp
    · intro b hByte
      exact
        List.forall_mem_append.mpr ⟨hFront, hTrail⟩ b
          (List.mem_reverse.mp hByte)
  · have hEnds :
        ∀ b ∈ (front ++ core).reverse.head?, Ascii.isBlank b = false := by
      rw [List.head?_reverse, List.getLast?_append_of_ne_nil _ hNil]
      exact hCore
    rcases exists_closeMark (front ++ core).reverse with
      ⟨before, closing, hText, hLength, hMark⟩
    rw [List.reverse_reverse] at hText
    have hNotBlank : ∀ b ∈ closing, Ascii.isBlank b = false :=
      fun b hByte =>
        isBlank_of_mem_blockBytes b
          (mem_blockBytes_of_closeMark hMark hByte)
    rcases exists_of_append_eq hFront hNotBlank hText with
      ⟨body, rfl, rfl⟩
    refine
      ⟨body, closing, trail, rfl, (closeMark_append_iff hFront).mp hMark,
        hTrail, hCore, ?_⟩
    rw [← List.append_assoc, List.reverse_append,
      blankAfterLead_append _ (by simpa using hTrail) hEnds, hLength,
      List.reverse_append, List.reverse_reverse, hText, reverse_blank]

/-
  Every text has these parts, and making its two marks blank one
  after the other clears two of them.
-/
theorem exists_blockParts
    (s : Bytes) :
    ∃ parts : BlockParts s,
      (blankAfterLead closeMarkReversed
          (blankAfterLead openMark s).reverse).reverse =
        parts.cleared := by
  rcases exists_openMark (s.dropWhile Ascii.isBlank) with
    ⟨opening, behind, hDrop, hLength, hOpen⟩
  have hLead : ∀ b ∈ s.takeWhile Ascii.isBlank, Ascii.isBlank b = true :=
    fun _ hByte => List.mem_takeWhile_imp hByte
  have hFront :
      ∀ b ∈ s.takeWhile Ascii.isBlank ++ spaces opening,
        Ascii.isBlank b = true :=
    List.forall_mem_append.mpr
      ⟨hLead, fun _ hByte => isBlank_of_mem_spaces hByte⟩
  rcases exists_closed hFront behind with
    ⟨body, closing, trail, rfl, hClose, hTrail, hEnds, hClosed⟩
  have hText :
      s =
        s.takeWhile Ascii.isBlank ++ opening ++ body ++ closing ++
          trail := by
    rw [List.append_assoc, List.append_assoc, List.append_assoc,
      ← List.append_assoc body, ← hDrop, List.takeWhile_append_dropWhile]
  have hFirst :
      ∀ b ∈ (opening ++ body ++ closing ++ trail).head?,
        Ascii.isBlank b = false := by
    rw [List.append_assoc, List.append_assoc, ← List.append_assoc body,
      ← hDrop]
    exact Bytes.head?_dropWhile_isBlank s
  have hOpened :
      blankAfterLead openMark s =
        s.takeWhile Ascii.isBlank ++ spaces opening ++
          (body ++ closing ++ trail) := by
    unfold blankAfterLead
    dsimp only
    rw [hLength, hDrop, blank_append, ← List.append_assoc]
  refine
    ⟨⟨_, opening, body, closing, trail, hText, hLead, hFirst, hOpen,
      hClose, hTrail, hEnds⟩, ?_⟩
  rw [hOpened]
  exact hClosed

/- Only bytes that may give way do so. -/
theorem cleared_blockParts
    (parts : BlockParts s) :
    Cleared blockBytes s parts.cleared := by
  conv => arg 2; rw [parts.text_eq]
  have hOpening :
      Cleared blockBytes parts.opening (spaces parts.opening) :=
    cleared_spaces (fun b hByte =>
      Or.inr (mem_blockBytes_of_openMark parts.isOpen hByte))
  have hClosing :
      Cleared blockBytes parts.closing (spaces parts.closing) :=
    cleared_spaces (fun b hByte =>
      Or.inr (mem_blockBytes_of_closeMark parts.isClose hByte))
  exact
    cleared_append
      (cleared_append
        (cleared_append
          (cleared_append (cleared_refl _ _) hOpening)
          (cleared_refl _ _))
        hClosing)
      (cleared_refl _ _)

------------------------------------------------------------
-- Stars
------------------------------------------------------------

/- A line with a space for the star behind its blanks, if there is one. -/
inductive StarCleared : Bytes → Bytes → Prop
| star (lead rest : Bytes)
    (hLead : ∀ b ∈ lead, Ascii.isBlank b = true) :
    StarCleared (lead ++ Ascii.star :: rest)
      (lead ++ Ascii.space :: rest)
| none (lead rest : Bytes)
    (hLead : ∀ b ∈ lead, Ascii.isBlank b = true)
    (hRest :
      ∀ b ∈ rest.head?, Ascii.isBlank b = false ∧ b ≠ Ascii.star) :
    StarCleared (lead ++ rest) (lead ++ rest)

/- A blank in front changes nothing about the star. -/
theorem starCleared_cons
    {b : UInt8}
    {line cleared : Bytes}
    (hBlank : Ascii.isBlank b = true)
    (hStar : StarCleared line cleared) :
    StarCleared (b :: line) (b :: cleared) := by
  cases hStar with
  | star lead rest hLead =>
      exact
        .star (b :: lead) rest (List.forall_mem_cons.mpr ⟨hBlank, hLead⟩)
  | none lead rest hLead hRest =>
      exact
        .none (b :: lead) rest (List.forall_mem_cons.mpr ⟨hBlank, hLead⟩)
          hRest

/- Taking a star away clears it. -/
theorem starCleared_stripStar
    (line : Bytes) :
    StarCleared line (stripStar line) := by
  induction line with
  | nil => exact .none [] [] (by simp) (by simp)
  | cons b rest ih =>
      unfold stripStar
      split
      · next hBlank => exact starCleared_cons hBlank ih
      · next hNot =>
          split
          · next hStar =>
              subst hStar
              exact .star [] rest (by simp)
          · next hOther =>
              refine .none [] (b :: rest) (by simp) ?_
              rintro _ ⟨⟩
              exact ⟨Bool.eq_false_iff.mpr hNot, hOther⟩

/- A star may give way. -/
theorem cleared_of_starCleared
    {line cleared : Bytes}
    (hStar : StarCleared line cleared) :
    Cleared blockBytes line cleared := by
  cases hStar with
  | star lead rest _ =>
      exact
        cleared_append (cleared_refl _ _)
          (List.Forall₂.cons (Or.inr ⟨by decide, rfl⟩)
            (cleared_refl _ _))
  | none _ _ _ _ => exact cleared_refl _ _

/- So may the stars of all lines of a text. -/
theorem cleared_of_lines
    (hStars :
      List.Forall₂ StarCleared (Bytes.splitLines s)
        (Bytes.splitLines t)) :
    Cleared blockBytes s t := by
  rw [← Bytes.join_splitLines s, ← Bytes.join_splitLines t]
  exact cleared_join _ (hStars.imp (fun _ _ => cleared_of_starCleared))

/- Taking stars away keeps the lines apart. -/
theorem splitLines_stripStar
    (s : Bytes) :
    Bytes.splitLines
        (Bytes.join [Ascii.lf] ((Bytes.splitLines s).map stripStar)) =
      (Bytes.splitLines s).map stripStar := by
  have hLines :
      ∀ line ∈ (Bytes.splitLines s).map stripStar, Ascii.lf ∉ line := by
    intro line hLine hLf
    rcases List.mem_map.mp hLine with ⟨raw, hRaw, rfl⟩
    rcases mem_stripStar hLf with hSpace | hIn
    · cases hSpace
    · exact Bytes.lf_not_mem_of_mem_splitLines s raw hRaw hIn
  rcases List.exists_cons_of_ne_nil (Bytes.splitLines_ne_nil s) with
    ⟨first, rest, hSplit⟩
  rw [hSplit, List.map_cons] at hLines ⊢
  exact Bytes.splitLines_join _ _ hLines

/-
  Taking the marks of a block comment away clears its two marks,
  and then at most one star on each line.
-/
theorem exists_lines_stripBlock
    (s : Bytes) :
    ∃ parts : BlockParts s,
      List.Forall₂ StarCleared (Bytes.splitLines parts.cleared)
        (Bytes.splitLines (stripBlock s)) := by
  rcases exists_blockParts s with ⟨parts, hParts⟩
  refine ⟨parts, ?_⟩
  unfold stripBlock
  dsimp only
  rw [hParts, splitLines_stripStar, List.forall₂_map_right_iff,
    List.forall₂_same]
  exact fun line _ => starCleared_stripStar line

end Marker

end Marginalia

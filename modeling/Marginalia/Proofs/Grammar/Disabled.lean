import Marginalia.Proofs.Grammar.Muting
import Marginalia.Proofs.Grammar.Reading
import Marginalia.Proofs.Token.Correspondence

/-
  This file proves that a disabled entry of a list affects
  nothing but itself: the grammar with it and the one without it
  cut all lines alike.

  The entry goes in two steps.  First it is muted where it is,
  which leaves all sites as they are.  Then the muted entry is
  dropped, which leaves the compiling as it is, since nothing is
  compiled for it.  No grammar in between need be written as
  JSON, so both steps are taken on declarations.

  Key definitions include:
    * `Json.Drops`, `Json.Disabled`
    * `Declaration.Alike`
  The main statements are:
    * `Declaration.exists_between_ofJson`
    * `GrammarDeclaration.exists_between_ofJson?`
    * `Grammar.exists_corresponds_of_drops`
    * `tokenizeLines?_of_drops`
-/

namespace Marginalia

------------------------------------------------------------
-- Entries of JSON Values
------------------------------------------------------------

namespace Json

/-
  The second value is the first one without an item in one of
  the arrays anywhere inside it, such as an array of patterns.
-/
inductive Drops (item : Json) : Json → Json → Prop where
| here
    (front back : List Json) :
    Drops item (.array (front ++ item :: back)) (.array (front ++ back))
| element
    {value value' : Json}
    (front back : List Json)
    (hInner : Drops item value value') :
    Drops item (.array (front ++ value :: back))
      (.array (front ++ value' :: back))
| member
    {value value' : Json}
    (before after : List (Bytes × Json))
    (key : Bytes)
    (hInner : Drops item value value') :
    Drops item (.object (before ++ (key, value) :: after))
      (.object (before ++ (key, value') :: after))

/- The names of the entries in the repository of a grammar. -/
def entryNames (doc : Json) : List Bytes :=
  match doc.get? "repository" with
  | some (.object members) => members.map Prod.fst
  | _ => []

/- An include that is resolved to no rule of the grammar. -/
def Unresolved (doc : Json) (text : Bytes) : Prop :=
  match Reference.ofText text with
  | .whole => False
  | .entry name => name ∉ doc.entryNames
  | .foreign _ => True

/-
  The entries of a list that are disabled: those that are no
  objects, includes that are not resolved, regions without an
  end, and rules that begin with a pattern that is rejected.
-/
inductive Disabled
    (engine : Engine)
    (doc : Json) : Json → Prop where
| stray
    {item : Json}
    (hItem : item.isObject = false) :
    Disabled engine doc item
| unresolved
    {item : Json}
    {text : Bytes}
    (hInclude : item.text? "include" = some text)
    (hTarget : doc.Unresolved text) :
    Disabled engine doc item
| endless
    {item : Json}
    {source : Bytes}
    (hInclude : item.text? "include" = none)
    (hMatch : item.text? "match" = none)
    (hBegin : item.text? "begin" = some source)
    (hEnd : item.text? "end" = none) :
    Disabled engine doc item
| rejectedMatch
    {item : Json}
    {source : Bytes}
    (hInclude : item.text? "include" = none)
    (hMatch : item.text? "match" = some source)
    (hRejected : engine.compile? source = none) :
    Disabled engine doc item
| rejectedBegin
    {item : Json}
    {source : Bytes}
    (hInclude : item.text? "include" = none)
    (hMatch : item.text? "match" = none)
    (hBegin : item.text? "begin" = some source)
    (hRejected : engine.compile? source = none) :
    Disabled engine doc item

variable {item value value' : Json}

/- A member stays as it is, or the item is dropped inside it. -/
theorem find?_drops
    (hInner : Drops item value value')
    (key other : Bytes)
    (before after : List (Bytes × Json)) :
    Members.find? other (before ++ (key, value) :: after) =
        Members.find? other (before ++ (key, value') :: after) ∨
      ∃ v v',
        Members.find? other (before ++ (key, value) :: after) = some v ∧
          Members.find? other (before ++ (key, value') :: after) =
            some v' ∧
          Drops item v v' := by
  induction before with
  | nil =>
      simp only [List.nil_append, Members.find?]
      split
      · exact Or.inr ⟨value, value', rfl, rfl, hInner⟩
      · exact Or.inl rfl
  | cons m before ih =>
      rcases m with ⟨k, v⟩
      simp only [List.cons_append, Members.find?]
      split
      · exact Or.inl rfl
      · exact ih

theorem get?_drops
    (hDrops : Drops item value value')
    (key : String) :
    value.get? key = value'.get? key ∨
      ∃ v v',
        value.get? key = some v ∧ value'.get? key = some v' ∧
          Drops item v v' := by
  cases hDrops with
  | here front back => exact Or.inl rfl
  | element front back hInner => exact Or.inl rfl
  | member before after other hInner =>
      exact find?_drops hInner other (utf8 key) before after

/- What is no array or object stays as it is. -/
theorem text?_of_drops
    (hDrops : Drops item value value')
    (key : String) :
    value.text? key = value'.text? key := by
  unfold text?
  rcases get?_drops hDrops key with hSame | ⟨v, v', hFirst, hSecond, hIn⟩
  · rw [hSame]
  · rw [hFirst, hSecond]
    cases hIn <;> rfl

/- The names of groups stay as they are. -/
theorem ofMembers?_of_drops
    (hDrops : Drops item value value')
    (key : Bytes)
    (before after : List (Bytes × Json)) :
    ∀ names : CaptureNames,
      CaptureNames.ofMembers? names (before ++ (key, value) :: after) =
        CaptureNames.ofMembers? names
          (before ++ (key, value') :: after) := by
  induction before with
  | nil =>
      intro names
      simp only [List.nil_append, CaptureNames.ofMembers?,
        text?_of_drops hDrops]
  | cons m before ih =>
      intro names
      simp only [List.cons_append, CaptureNames.ofMembers?, ih]

theorem ofJson?_of_drops
    (hDrops : Drops item value value') :
    CaptureNames.ofJson? value = CaptureNames.ofJson? value' := by
  cases hDrops with
  | here front back => rfl
  | element front back hInner => rfl
  | member before after key hInner =>
      exact ofMembers?_of_drops hInner key before after []

/- The names of groups of a member stay as they are. -/
theorem ofMember?_of_drops
    (hDrops : Drops item value value')
    (key : String)
    (fallback : CaptureNames) :
    CaptureNames.ofMember? value key fallback =
      CaptureNames.ofMember? value' key fallback := by
  unfold CaptureNames.ofMember?
  rcases get?_drops hDrops key with hSame | ⟨v, v', hFirst, hSecond, hIn⟩
  · rw [hSame]
  · rw [hFirst, hSecond]
    exact ofJson?_of_drops hIn

/- A flag stays as it is. -/
theorem any_isOn_of_drops
    (hDrops : Drops item value value')
    (key : String) :
    (value.get? key).any Declaration.isOn =
      (value'.get? key).any Declaration.isOn := by
  rcases get?_drops hDrops key with hSame | ⟨v, v', hFirst, hSecond, hIn⟩
  · rw [hSame]
  · rw [hFirst, hSecond]
    cases hIn <;> rfl

end Json

------------------------------------------------------------
-- Compiling Alike
------------------------------------------------------------

namespace Declaration

/- Two declarations are compiled alike. -/
structure Alike (c c' : Declaration) : Prop where
  compile_eq :
    ∀ engine scopeName entry,
      compile engine scopeName entry c =
        compile engine scopeName entry c'
  compileInto_eq :
    ∀ engine scopeName entry id,
      compileInto engine scopeName entry id c =
        compileInto engine scopeName entry id c'

/- Two lists of declarations are compiled alike. -/
def AllAlike (cs cs' : List Declaration) : Prop :=
  ∀ engine scopeName entry,
    compileAll engine scopeName entry cs =
      compileAll engine scopeName entry cs'

theorem alike_refl (c : Declaration) : Alike c c :=
  ⟨fun _ _ _ => rfl, fun _ _ _ _ => rfl⟩

/- Rules with lists that are compiled alike. -/
theorem alike_rule
    {cs cs' : List Declaration}
    (header : Header)
    (hLists : AllAlike cs cs') :
    Alike (.rule header cs) (.rule header cs') where
  compile_eq := by
    intro engine scopeName entry
    simp only [compile, hLists engine scopeName entry]
  compileInto_eq := by
    intro engine scopeName entry id
    simp only [compileInto, hLists engine scopeName entry]

/- Lists that begin alike. -/
theorem allAlike_append
    {cs cs' : List Declaration}
    (front : List Declaration)
    (hLists : AllAlike cs cs') :
    AllAlike (front ++ cs) (front ++ cs') := by
  intro engine scopeName entry
  induction front with
  | nil => exact hLists engine scopeName entry
  | cons c front ih => simp only [List.cons_append, compileAll, ih]

/- Lists that differ in one declaration. -/
theorem allAlike_cons
    {c c' : Declaration}
    (back : List Declaration)
    (hAlike : Alike c c') :
    AllAlike (c :: back) (c' :: back) := by
  intro engine scopeName entry
  simp only [compileAll, hAlike.compile_eq engine scopeName entry]

/- What is no rule may be left out. -/
theorem allAlike_invalid
    (back : List Declaration) :
    AllAlike (.invalid :: back) back := by
  intro engine scopeName entry
  simp [compileAll, compile]

end Declaration

namespace GrammarDeclaration

open Declaration

/- Two grammars are compiled alike. -/
structure Alike (d d' : GrammarDeclaration) : Prop where
  scopeName_eq : d.scopeName = d'.scopeName
  patterns : AllAlike d.patterns d'.patterns
  repository :
    List.Forall₂ (RelatedEntries Declaration.Alike) d.repository
      d'.repository

variable {d d' : GrammarDeclaration}

/- Entries of the grammars are compiled alike. -/
theorem entry_eq_of_alike
    (hAlike : Alike d d')
    (engine : Engine)
    (depth : Nat) :
    d.entry engine depth = d'.entry engine depth := by
  induction depth with
  | zero => rfl
  | succ depth ih =>
      funext name
      have hEntry :
          Option.Rel Declaration.Alike (d.entry? name)
            (d'.entry? name) :=
        rel_find?_of_forall₂ hAlike.repository name
      unfold entry
      rw [ih, hAlike.scopeName_eq]
      generalize d.entry? name = c? at hEntry ⊢
      generalize d'.entry? name = c'? at hEntry ⊢
      cases hEntry with
      | none => rfl
      | some hHere => simp only [hHere.compileInto_eq]

/- Compiling does the same for both grammars. -/
theorem compile_eq_of_alike
    (hAlike : Alike d d')
    (engine : Engine) :
    d.compile engine = d'.compile engine := by
  unfold compile
  rw [hAlike.scopeName_eq, hAlike.repository.length_eq,
    entry_eq_of_alike hAlike, hAlike.patterns]

/- Both grammars are built alike. -/
theorem ofDeclaration_eq_of_alike
    (hAlike : Alike d d')
    (engine : BoundedEngine) :
    Grammar.ofDeclaration engine d =
      Grammar.ofDeclaration engine d' := by
  unfold Grammar.ofDeclaration
  rw [compile_eq_of_alike hAlike, hAlike.scopeName_eq]

end GrammarDeclaration

------------------------------------------------------------
-- Reading Declarations
------------------------------------------------------------

namespace Declaration

open Json (Drops)

variable {engine : Engine}
variable {d : GrammarDeclaration}
variable {item value value' : Json}

/- All but the list of rules is read alike. -/
theorem ofParts_of_drops
    (hDrops : Drops item value value')
    (children : List Declaration) :
    ofParts value children = ofParts value' children := by
  have hPatterns :
      (value.get? "patterns").isSome = (value'.get? "patterns").isSome := by
    rcases Json.get?_drops hDrops "patterns" with
      hSame | ⟨v, v', hFirst, hSecond, _⟩
    · rw [hSame]
    · rw [hFirst, hSecond]
      rfl
  unfold ofParts regionOfJson
  simp only [Json.text?_of_drops hDrops, Json.ofMember?_of_drops hDrops,
    Json.any_isOn_of_drops hDrops]
  generalize value.get? "patterns" = first at hPatterns ⊢
  generalize value'.get? "patterns" = second at hPatterns ⊢
  cases first with
  | none =>
      cases second with
      | none => rfl
      | some w => cases hPatterns
  | some v =>
      cases second with
      | none => cases hPatterns
      | some w => rfl

/- The list of rules is the list of a rule, or is not read. -/
theorem ofParts_shape
    (value : Json) :
    (∃ c, ∀ children, ofParts value children = c) ∨
      ∃ header, ∀ children,
        ofParts value children = .rule header children := by
  unfold ofParts regionOfJson
  split
  · exact Or.inl ⟨_, fun _ => rfl⟩
  · split
    · exact Or.inl ⟨_, fun _ => rfl⟩
    · exact Or.inr ⟨_, fun _ => rfl⟩
  · split
    · exact Or.inl ⟨_, fun _ => rfl⟩
    · dsimp only
      split
      · exact Or.inl ⟨_, fun _ => rfl⟩
      · exact Or.inr ⟨_, fun _ => rfl⟩
  · split
    · exact Or.inl ⟨_, fun _ => rfl⟩
    · exact Or.inr ⟨_, fun _ => rfl⟩

/- From one list to another, declarations are muted and then left out. -/
def Between
    (engine : Engine)
    (d : GrammarDeclaration)
    (cs cs' : List Declaration) : Prop :=
  ∃ ms, List.Forall₂ (Mutes engine d) cs ms ∧ AllAlike ms cs'

/- Inside a declaration, others are muted and then left out. -/
def BetweenInside
    (engine : Engine)
    (d : GrammarDeclaration)
    (c c' : Declaration) : Prop :=
  ∃ m, MutesInside engine d c m ∧ Alike m c'

theorem between_refl (cs : List Declaration) : Between engine d cs cs :=
  ⟨cs, List.forall₂_same.mpr (fun c _ => Mutes.same c),
    fun _ _ _ => rfl⟩

/- The list of rules of an object is that of its first such member. -/
theorem between_patternsOf
    (hItems : Between engine d (itemsOf value) (itemsOf value'))
    (key : Bytes)
    (before after : List (Bytes × Json)) :
    Between engine d (patternsOf (before ++ (key, value) :: after))
      (patternsOf (before ++ (key, value') :: after)) := by
  induction before with
  | nil =>
      simp only [List.nil_append, patternsOf]
      split
      · exact hItems
      · exact between_refl _
  | cons m before ih =>
      simp only [List.cons_append, patternsOf]
      split
      · exact between_refl _
      · exact ih

/- The declaration of an object, if its list of rules is known. -/
theorem betweenInside_ofParts
    {children children' : List Declaration}
    (hDrops : Drops item value value')
    (hChildren : Between engine d children children') :
    BetweenInside engine d (ofParts value children)
      (ofParts value' children') := by
  rw [← ofParts_of_drops hDrops]
  rcases ofParts_shape value with ⟨c, hShape⟩ | ⟨header, hShape⟩
  · rw [hShape, hShape]
    exact ⟨c, mutesInside_refl c, alike_refl c⟩
  · rw [hShape, hShape]
    rcases hChildren with ⟨ms, hMuted, hAlike⟩
    exact
      ⟨.rule header ms, mutesInside_rule header hMuted,
        alike_rule header hAlike⟩

/-
  Dropping a disabled item is muting it and leaving it out.  The
  induction is on the place of the item, for a value that is a
  declaration and for one that is a list of them.
-/
theorem between_of_drops
    (hDisabled : Disabled engine d (ofJson item))
    (hDrops : Drops item value value') :
    BetweenInside engine d (ofJson value) (ofJson value') ∧
      Between engine d (itemsOf value) (itemsOf value') := by
  have hSame : ∀ items : List Json,
      List.Forall₂ (Mutes engine d) (items.map ofJson) (items.map ofJson) :=
    fun items => List.forall₂_same.mpr (fun c _ => Mutes.same c)
  induction hDrops with
  | here front back =>
      refine ⟨⟨_, mutesInside_refl _, alike_refl _⟩, ?_⟩
      simp only [itemsOf, ofItems_eq_map, List.map_append, List.map_cons]
      refine
        ⟨front.map ofJson ++ .invalid :: back.map ofJson, ?_,
          allAlike_append _ (allAlike_invalid _)⟩
      exact
        List.rel_append (hSame front)
          (List.Forall₂.cons (Mutes.muted hDisabled) (hSame back))
  | element front back hInner ih =>
      refine ⟨⟨_, mutesInside_refl _, alike_refl _⟩, ?_⟩
      rcases ih.1 with ⟨m, hMuted, hAlike⟩
      simp only [itemsOf, ofItems_eq_map, List.map_append, List.map_cons]
      refine
        ⟨front.map ofJson ++ m :: back.map ofJson, ?_,
          allAlike_append _ (allAlike_cons _ hAlike)⟩
      exact
        List.rel_append (hSame front)
          (List.Forall₂.cons hMuted.mutes (hSame back))
  | member before after key hInner ih =>
      refine ⟨?_, between_refl _⟩
      exact
        betweenInside_ofParts (Drops.member before after key hInner)
          (between_patternsOf ih.2 key before after)

/- A rule whose pattern is rejected, or that is not read at all. -/
theorem disabled_of_source
    {children : List Declaration}
    {source : Bytes}
    (hRejected : engine.compile? source = none)
    (hInclude : value.text? "include" = none)
    (hSource :
      value.text? "match" = some source ∨
        (value.text? "match" = none ∧
          value.text? "begin" = some source)) :
    Disabled engine d (ofParts value children) := by
  rcases hSource with hMatch | ⟨hMatch, hBegin⟩
  · simp only [ofParts, hInclude, hMatch]
    split
    · exact Disabled.unnumbered
    · exact Disabled.rejected ⟨source, rfl, hRejected⟩
  · simp only [ofParts, hInclude, hMatch, hBegin, regionOfJson]
    split
    · exact Disabled.endless source
    · split
      · exact Disabled.unnumbered
      · exact Disabled.rejected ⟨source, rfl, hRejected⟩

end Declaration

------------------------------------------------------------
-- Reading Grammars
------------------------------------------------------------

namespace GrammarDeclaration

open Declaration
open Json (Drops)

variable {engine : Engine}
variable {d d' : GrammarDeclaration}
variable {item doc doc' : Json}

/- The names of the entries that are read. -/
theorem entry?_eq_none
    {name : Bytes}
    (hRead : ofJson? doc = some d)
    (hName : name ∉ doc.entryNames) :
    d.entry? name = none := by
  rcases ofJson?_eq_some hRead with ⟨members, _, _, _, hRepository⟩
  unfold entry?
  rw [hRepository]
  unfold Json.entryNames at hName
  cases hMember : doc.get? "repository" with
  | none => rfl
  | some repository =>
      cases repository with
      | object entries =>
          rw [hMember] at hName
          rw [Option.map_eq_none_iff, List.find?_eq_none]
          intro e hEntry hSame
          rcases List.mem_map.mp hEntry with ⟨m, hIn, rfl⟩
          rw [beq_iff_eq] at hSame
          exact hName (List.mem_map.mpr ⟨m, hIn, hSame⟩)
      | null => rfl
      | bool b => rfl
      | int n => rfl
      | fractional numeral => rfl
      | text s => rfl
      | array items => rfl

/- A disabled item is read as a disabled declaration. -/
theorem disabled_ofJson
    (hRead : ofJson? doc = some d)
    (hDisabled : doc.Disabled engine item) :
    Disabled engine d (Declaration.ofJson item) := by
  cases hDisabled with
  | stray hItem =>
      cases item with
      | object members => cases hItem
      | null => exact Disabled.invalid
      | bool b => exact Disabled.invalid
      | int n => exact Disabled.invalid
      | fractional numeral => exact Disabled.invalid
      | text s => exact Disabled.invalid
      | array items => exact Disabled.invalid
  | @unresolved text hInclude hTarget =>
      rw [Declaration.ofJson_eq_ofParts]
      simp only [ofParts, hInclude]
      apply Disabled.unresolved
      unfold Json.Unresolved at hTarget
      cases hReference : Reference.ofText text with
      | whole =>
          rw [hReference] at hTarget
          exact hTarget.elim
      | foreign name => rfl
      | entry name =>
          rw [hReference] at hTarget
          simp [referenceSite?, entrySite?, entry?_eq_none hRead hTarget]
  | endless hInclude hMatch hBegin hEnd =>
      rw [Declaration.ofJson_eq_ofParts]
      simp only [ofParts, hInclude, hMatch, hBegin, regionOfJson, hEnd]
      exact Disabled.endless _
  | rejectedMatch hInclude hMatch hRejected =>
      rw [Declaration.ofJson_eq_ofParts]
      exact disabled_of_source hRejected hInclude (Or.inl hMatch)
  | rejectedBegin hInclude hMatch hBegin hRejected =>
      rw [Declaration.ofJson_eq_ofParts]
      exact
        disabled_of_source hRejected hInclude (Or.inr ⟨hMatch, hBegin⟩)

/- From some entries to others, declarations are muted and left out. -/
def EntriesBetween
    (engine : Engine)
    (d : GrammarDeclaration)
    (es es' : List (Bytes × Declaration)) : Prop :=
  ∃ ms,
    List.Forall₂ (RelatedEntries (MutesInside engine d)) es ms ∧
      List.Forall₂ (RelatedEntries Declaration.Alike) ms es'

theorem entriesBetween_refl
    (es : List (Bytes × Declaration)) :
    EntriesBetween engine d es es :=
  ⟨es,
    List.forall₂_same.mpr (fun e _ => ⟨rfl, mutesInside_refl e.2⟩),
    List.forall₂_same.mpr (fun e _ => ⟨rfl, alike_refl e.2⟩)⟩

/- Entries in a row. -/
theorem entriesBetween_append
    {es es' fs fs' : List (Bytes × Declaration)}
    (hFirst : EntriesBetween engine d es es')
    (hSecond : EntriesBetween engine d fs fs') :
    EntriesBetween engine d (es ++ fs) (es' ++ fs') := by
  rcases hFirst with ⟨ms, hMuted, hAlike⟩
  rcases hSecond with ⟨ns, hMuted', hAlike'⟩
  exact
    ⟨ms ++ ns, List.rel_append hMuted hMuted',
      List.rel_append hAlike hAlike'⟩

/- The entries of a repository inside which an item is dropped. -/
theorem entriesBetween_of_drops
    {value value' : Json}
    (hDisabled : Disabled engine d (Declaration.ofJson item))
    (hDrops : Drops item value value') :
    EntriesBetween engine d (entriesOf value) (entriesOf value') := by
  cases hDrops with
  | here front back => exact entriesBetween_refl []
  | element front back hInner => exact entriesBetween_refl []
  | member before after key hInner =>
      rcases (between_of_drops hDisabled hInner).1 with
        ⟨m, hMuted, hAlike⟩
      have hHere :
          EntriesBetween engine d
            [(key, Declaration.ofJson _)] [(key, Declaration.ofJson _)] :=
        ⟨[(key, m)], List.Forall₂.cons ⟨rfl, hMuted⟩ List.Forall₂.nil,
          List.Forall₂.cons ⟨rfl, hAlike⟩ List.Forall₂.nil⟩
      simp only [entriesOf, List.map_append, List.map_cons]
      exact
        entriesBetween_append (entriesBetween_refl _)
          (entriesBetween_append hHere (entriesBetween_refl _))

/-
  Dropping a disabled item is muting it, and then compiling
  alike.
-/
theorem exists_between_ofJson?
    (hRead : ofJson? doc = some d)
    (hRead' : ofJson? doc' = some d')
    (hDisabled : Disabled engine d (Declaration.ofJson item))
    (hDrops : Drops item doc doc') :
    ∃ middle, Mutes engine d middle ∧ Alike middle d' := by
  rcases ofJson?_eq_some hRead with
    ⟨members, hDoc, hName, hPatterns, hRepository⟩
  rcases ofJson?_eq_some hRead' with
    ⟨members', hDoc', hName', hPatterns', hRepository'⟩
  have hScope : d.scopeName = d'.scopeName := by
    rw [Json.text?_of_drops hDrops, hName'] at hName
    exact (Option.some.inj hName).symm
  have hItems : Between engine d d.patterns d'.patterns := by
    rw [hPatterns, hPatterns']
    subst hDoc hDoc'
    cases hDrops with
    | member before after key hInner =>
        exact
          between_patternsOf (between_of_drops hDisabled hInner).2 key
            before after
  have hEntries : EntriesBetween engine d d.repository d'.repository := by
    rw [hRepository, hRepository']
    rcases Json.get?_drops hDrops "repository" with
      hSame | ⟨v, v', hFirst, hSecond, hInner⟩
    · rw [hSame]
      exact entriesBetween_refl _
    · rw [hFirst, hSecond]
      exact entriesBetween_of_drops hDisabled hInner
  rcases hItems with ⟨patterns, hMuted, hAlike⟩
  rcases hEntries with ⟨repository, hMutedAll, hAlikeAll⟩
  exact
    ⟨⟨d.scopeName, patterns, repository⟩, ⟨rfl, hMuted, hMutedAll⟩,
      ⟨hScope, hAlike, hAlikeAll⟩⟩

end GrammarDeclaration

------------------------------------------------------------
-- Grammars
------------------------------------------------------------

namespace Grammar

/- The grammars with and without a disabled item correspond. -/
theorem exists_corresponds_of_drops
    {item doc doc' : Json}
    {grammar grammar' : Grammar}
    {remarks remarks' : List Diagnostic}
    {engine : BoundedEngine}
    (hDrops : Json.Drops item doc doc')
    (hDisabled : doc.Disabled engine.toEngine item)
    (hBuilt : ofJson engine doc = (.ok (some grammar), remarks))
    (hBuilt' : ofJson engine doc' = (.ok (some grammar'), remarks')) :
    ∃ partner, grammar.Corresponds partner grammar' := by
  rcases exists_ofDeclaration_eq hBuilt with ⟨d, hRead, hMade⟩
  rcases exists_ofDeclaration_eq hBuilt' with ⟨d', hRead', hMade'⟩
  rcases
      GrammarDeclaration.exists_between_ofJson? hRead hRead'
        (GrammarDeclaration.disabled_ofJson hRead hDisabled) hDrops with
    ⟨middle, hMutes, hAlike⟩
  rw [← GrammarDeclaration.ofDeclaration_eq_of_alike hAlike engine]
    at hMade'
  rcases exists_laidOut hMade with ⟨sites, rules, hLaid, rfl⟩
  rcases exists_laidOut hMade' with ⟨sites', rules', hLaid', rfl⟩
  rw [← hMutes.scopeName_eq]
  exact
    ⟨_,
      corresponds_of_paired engine d.scopeName
        (GrammarDeclaration.paired_of_mutes hMutes hLaid hLaid')
        ⟨.root, hLaid.root, hLaid'.root,
          GrammarDeclaration.kept_root hMutes⟩⟩

end Grammar

/-
  A disabled entry of a list affects nothing but itself: with it
  and without it, all lines have the same tokens, and their
  stacks are as deep.  All that is asked of the engine is that
  its matches stay inside the line, so that all lines end.
-/
theorem tokenizeLines?_of_drops
    {item doc doc' : Json}
    {grammar grammar' : Grammar}
    {remarks remarks' : List Diagnostic}
    {compiler : BoundedEngine}
    {engine : Engine}
    (hDrops : Json.Drops item doc doc')
    (hDisabled : doc.Disabled compiler.toEngine item)
    (hBuilt :
      Grammar.ofJson compiler doc = (.ok (some grammar), remarks))
    (hBuilt' :
      Grammar.ofJson compiler doc' = (.ok (some grammar'), remarks'))
    (hEngine : engine.StaysInside)
    (lines : List (Bytes × Nat)) :
    ∃ results results',
      tokenizeLines? engine grammar RuleStack.empty lines =
          some results ∧
        tokenizeLines? engine grammar' RuleStack.empty lines =
          some results' ∧
        results.length = lines.length ∧
        results.map (fun r => (r.tokens, r.stack.depth)) =
          results'.map (fun r => (r.tokens, r.stack.depth)) := by
  rcases
      Grammar.exists_corresponds_of_drops hDrops hDisabled hBuilt
        hBuilt' with
    ⟨partner, hCorresponds⟩
  rcases tokenizeLines?_partition hEngine grammar lines with
    ⟨results, hLines, hPartition⟩
  rcases corresponds_tokenizeLines? hCorresponds lines List.Forall₂.nil
      hLines with
    ⟨results', hLines', hAlike⟩
  exact
    ⟨results, results', hLines, hLines', hPartition.length_eq.symm,
      LineTokens.map_eq_of_corresponds hAlike⟩

/- A region whose begin is rejected; inside it is an entry. -/
def Json.rejectedRegion : Json :=
  .record
    [("begin", .ofString "("), ("end", .ofString ")"),
      ("patterns", .array [.record [("include", .ofString "#word")]])]

/- A grammar of comments that hold words, with some entries before. -/
def Json.commentGrammar (entries : List Json) : Json :=
  .object
    [(utf8 "patterns",
        .array
          (entries ++
            [.record
              [("begin", .ofString "/\\*"), ("end", .ofString "\\*/"),
                ("name", .ofString "comment.block"),
                ("patterns",
                  .array [.record [("include", .ofString "#word")]])]])),
      (utf8 "repository",
        .record
          [("word",
              .record
                [("match", .ofString "w+"),
                  ("name", .ofString "keyword")])]),
      (utf8 "scopeName", .ofString "source.c")]

/-
  With the rejected region, the entry is numbered before the
  comment, and without it after the comment.
-/
theorem tokenizeLines?_of_drops_rejectedRegion :
    ∃ grammar remarks grammar' remarks' results results',
      Grammar.ofJson .standard (Json.commentGrammar [Json.rejectedRegion]) =
          (.ok (some grammar), remarks) ∧
        Grammar.ofJson .standard (Json.commentGrammar []) =
            (.ok (some grammar'), remarks') ∧
          tokenizeLines? Engine.standard grammar RuleStack.empty
              [(utf8 "x /* ww", 0), (utf8 "(w) */ w", 4)] =
            some results ∧
          tokenizeLines? Engine.standard grammar' RuleStack.empty
              [(utf8 "x /* ww", 0), (utf8 "(w) */ w", 4)] =
            some results' ∧
          results.length = 2 ∧
          results.map (fun r => (r.tokens, r.stack.depth)) =
            results'.map (fun r => (r.tokens, r.stack.depth)) := by
  have hBuilt : ∃ grammar remarks,
      Grammar.ofJson .standard (Json.commentGrammar [Json.rejectedRegion]) =
        (.ok (some grammar), remarks) := ⟨_, _, rfl⟩
  have hBuilt' : ∃ grammar remarks,
      Grammar.ofJson .standard (Json.commentGrammar []) =
        (.ok (some grammar), remarks) := ⟨_, _, rfl⟩
  rcases hBuilt with ⟨grammar, remarks, hBuilt⟩
  rcases hBuilt' with ⟨grammar', remarks', hBuilt'⟩
  have hDrops :
      Json.Drops Json.rejectedRegion
        (Json.commentGrammar [Json.rejectedRegion])
        (Json.commentGrammar []) :=
    Json.Drops.member [] _ _ (Json.Drops.here [] _)
  have hDisabled :
      (Json.commentGrammar [Json.rejectedRegion]).Disabled
        Engine.standard Json.rejectedRegion :=
    Json.Disabled.rejectedBegin rfl rfl rfl rfl
  rcases
      tokenizeLines?_of_drops hDrops hDisabled hBuilt hBuilt'
        Engine.standard_staysInside
        [(utf8 "x /* ww", 0), (utf8 "(w) */ w", 4)] with
    ⟨results, results', hLines, hLines', hLength, hSame⟩
  exact
    ⟨grammar, remarks, grammar', remarks', results, results', hBuilt,
      hBuilt', hLines, hLines', hLength, hSame⟩

end Marginalia

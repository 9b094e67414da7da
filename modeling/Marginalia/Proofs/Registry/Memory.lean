import Marginalia.Registry.Basic

/-
  This file proves that a registry remembers what the files
  hold: the grammar of a language is the same as if it was
  loaded again, and grammars that are remembered differ in their
  numbers.

  Key definitions include:
    * `Registry.held`
    * `Registry.Holds`
    * `Registry.Remembers`, `Registry.Numbered`
    * `Registry.Grows`
    * `Registry.Asked`
  The main statements are:
    * `Registry.asked_grammarFor`
    * `Registry.grammarFor_remembers`
    * `Registry.numbered_grammarFor`
-/

namespace Marginalia

namespace Registry

------------------------------------------------------------
-- What the Files Hold
------------------------------------------------------------

/- The grammar of a language, loaded from its file. -/
def held
    (files : Files)
    (registry : Registry)
    (language : Bytes) : Option Grammar :=
  match registry.descriptor? language with
  | none => none
  | some d =>
      match (loadFile registry.engine files d.path).1 with
      | .ok grammar? => grammar?
      | .error _ => none

/-
  The file of a descriptor can be loaded, or is found to hold no
  grammar.
-/
def Loads
    (engine : BoundedEngine)
    (files : Files)
    (d : Descriptor) : Prop :=
  ∃ grammar?, (loadFile engine files d.path).1 = .ok grammar?

/- Whether it can be loaded is found by loading it. -/
theorem loads_iff
    {engine : BoundedEngine}
    {files : Files}
    {d : Descriptor} :
    Loads engine files d ↔ (loadFile engine files d.path).1.isOk := by
  unfold Loads
  cases (loadFile engine files d.path).1 <;>
    simp [Except.isOk, Except.toBool]

instance (engine : BoundedEngine) (files : Files) (d : Descriptor) :
    Decidable (Loads engine files d) :=
  decidable_of_iff _ loads_iff.symm

/- The descriptor of a language is one of the registry. -/
theorem mem_of_descriptor?
    {registry : Registry}
    {language : Bytes}
    {d : Descriptor}
    (hDescriptor : registry.descriptor? language = some d) :
    d ∈ registry.descriptors := by
  unfold descriptor? at hDescriptor
  dsimp only at hDescriptor
  split at hDescriptor
  · cases hDescriptor
  · exact List.mem_of_find?_eq_some hDescriptor

/- The case of a language does not matter for its descriptor. -/
theorem descriptor?_congr
    {language other : Bytes}
    (hLower : language.lower = other.lower)
    (registry : Registry) :
    registry.descriptor? language = registry.descriptor? other := by
  unfold descriptor?
  rw [hLower]

/- Nothing but the descriptors and the refused languages matters. -/
theorem descriptor?_of_descriptors
    {registry next : Registry}
    (hDescriptors : next.descriptors = registry.descriptors)
    (hExcluded : next.excluded = registry.excluded)
    (language : Bytes) :
    next.descriptor? language = registry.descriptor? language := by
  unfold descriptor?
  rw [hDescriptors, hExcluded]

/- The case of a language does not matter for what is held. -/
theorem held_congr
    {language other : Bytes}
    (hLower : language.lower = other.lower)
    (files : Files)
    (registry : Registry) :
    registry.held files language = registry.held files other := by
  unfold held
  rw [descriptor?_congr hLower]

/- What the files hold depends on the engine and the descriptors alone. -/
theorem held_of_descriptors
    {registry next : Registry}
    (hEngine : next.engine = registry.engine)
    (hDescriptors : next.descriptors = registry.descriptors)
    (hExcluded : next.excluded = registry.excluded)
    (files : Files)
    (language : Bytes) :
    next.held files language = registry.held files language := by
  unfold held
  rw [hEngine, descriptor?_of_descriptors hDescriptors hExcluded]

------------------------------------------------------------
-- What Is Remembered
------------------------------------------------------------

/- What is remembered of a key is in the memory. -/
theorem mem_of_remembered?
    {key : Bytes}
    {memory : List (Bytes × Option LoadedGrammar)}
    {result : Option LoadedGrammar}
    (hRemembered : remembered? key memory = some result) :
    (key, result) ∈ memory := by
  rcases Option.map_eq_some_iff.mp hRemembered with
    ⟨entry, hFind, hResult⟩
  have hKey : entry.1 = key := by
    simpa using List.find?_some hFind
  have hEntry : (key, result) = entry := by
    rw [← hKey, ← hResult]
  rw [hEntry]
  exact List.mem_of_find?_eq_some hFind

/- The grammar is remembered by its path. -/
def Holds (registry : Registry) (loaded : LoadedGrammar) : Prop :=
  ∃ path, (path, some loaded) ∈ registry.byPath

/-
  The registry remembers what the files hold, and tells the
  grammars that it remembers apart by their numbers.
-/
structure Remembers (files : Files) (registry : Registry) : Prop where
  byPath_eq :
    ∀ {path : Bytes} {result : Option LoadedGrammar},
      (path, result) ∈ registry.byPath →
        (loadFile registry.engine files path).1 =
          .ok (result.map LoadedGrammar.grammar)
  byLanguage_eq :
    ∀ {key : Bytes} {result : Option LoadedGrammar},
      (key, result) ∈ registry.byLanguage →
        ∀ language : Bytes,
          language.lower = key →
            result.map LoadedGrammar.grammar =
              registry.held files language
  byLanguage_holds :
    ∀ {key : Bytes} {loaded : LoadedGrammar},
      (key, some loaded) ∈ registry.byLanguage →
        registry.Holds loaded
  id_lt :
    ∀ {loaded : LoadedGrammar},
      registry.Holds loaded → loaded.id < registry.nextId
  eq_of_id_eq :
    ∀ {a b : LoadedGrammar},
      registry.Holds a → registry.Holds b → a.id = b.id → a = b

/-
  The registry tells the grammars that it remembers apart by
  their numbers, whatever the files hold.
-/
structure Numbered (registry : Registry) : Prop where
  byLanguage_holds :
    ∀ {key : Bytes} {loaded : LoadedGrammar},
      (key, some loaded) ∈ registry.byLanguage →
        registry.Holds loaded
  id_lt :
    ∀ {loaded : LoadedGrammar},
      registry.Holds loaded → loaded.id < registry.nextId
  eq_of_id_eq :
    ∀ {a b : LoadedGrammar},
      registry.Holds a → registry.Holds b → a.id = b.id → a = b

/- A registry that remembers what the files hold does. -/
theorem numbered_of_remembers
    {files : Files}
    {registry : Registry}
    (hRemembers : Remembers files registry) :
    Numbered registry :=
  ⟨hRemembers.byLanguage_holds, hRemembers.id_lt,
    hRemembers.eq_of_id_eq⟩

/- The second registry remembers more than the first. -/
structure Grows (registry next : Registry) : Prop where
  engine_eq : next.engine = registry.engine
  descriptors_eq : next.descriptors = registry.descriptors
  excluded_eq : next.excluded = registry.excluded
  holds :
    ∀ {loaded : LoadedGrammar},
      registry.Holds loaded → next.Holds loaded

/- A registry that has loaded nothing. -/
theorem remembers_create
    (files : Files)
    (engine : BoundedEngine)
    (descriptors : List Descriptor)
    (excluded : List Bytes) :
    Remembers files (create engine descriptors excluded) where
  byPath_eq := by
    intro path result hMember
    cases hMember
  byLanguage_eq := by
    intro key result hMember
    cases hMember
  byLanguage_holds := by
    intro key loaded hMember
    cases hMember
  id_lt := by
    intro loaded hHolds
    rcases hHolds with ⟨path, hMember⟩
    cases hMember
  eq_of_id_eq := by
    intro a b hHolds
    rcases hHolds with ⟨path, hMember⟩
    cases hMember

/- It has no grammars that it could mix up. -/
theorem numbered_create
    (engine : BoundedEngine)
    (descriptors : List Descriptor)
    (excluded : List Bytes) :
    Numbered (create engine descriptors excluded) :=
  numbered_of_remembers
    (remembers_create (fun _ => none) engine descriptors excluded)

theorem grows_refl
    (registry : Registry) :
    Grows registry registry :=
  ⟨rfl, rfl, rfl, fun hHolds => hHolds⟩

/- A grammar that is remembered may be that of one more language. -/
theorem numbered_rememberLanguage
    {registry : Registry}
    {result : Option LoadedGrammar}
    (hNumbered : Numbered registry)
    (hHolds : ∀ loaded ∈ result, registry.Holds loaded)
    (key : Bytes) :
    Numbered (registry.rememberLanguage key result) where
  byLanguage_holds := by
    intro other loaded hMember
    rcases List.mem_cons.mp hMember with hNew | hOld
    · exact hHolds loaded (Prod.mk.inj hNew).2.symm
    · exact hNumbered.byLanguage_holds hOld
  id_lt := hNumbered.id_lt
  eq_of_id_eq := hNumbered.eq_of_id_eq

/- What the files hold for a language may be remembered. -/
theorem remembers_rememberLanguage
    {files : Files}
    {registry : Registry}
    {language : Bytes}
    {result : Option LoadedGrammar}
    (hRemembers : Remembers files registry)
    (hResult :
      result.map LoadedGrammar.grammar = registry.held files language)
    (hHolds : ∀ loaded ∈ result, registry.Holds loaded) :
    Remembers files
      (registry.rememberLanguage language.lower result) where
  byPath_eq := hRemembers.byPath_eq
  byLanguage_eq := by
    intro key other hMember spelled hKey
    rcases List.mem_cons.mp hMember with hNew | hOld
    · have hBoth := Prod.mk.inj hNew
      rw [hBoth.2, hResult]
      apply held_congr
      rw [hKey, hBoth.1]
    · exact hRemembers.byLanguage_eq hOld spelled hKey
  byLanguage_holds :=
    (numbered_rememberLanguage (numbered_of_remembers hRemembers)
      hHolds language.lower).byLanguage_holds
  id_lt := hRemembers.id_lt
  eq_of_id_eq := hRemembers.eq_of_id_eq

/- Only the grammar that is remembered by a path is new. -/
theorem holds_rememberPath_iff
    {registry : Registry}
    {path : Bytes}
    {grammar? : Option Grammar}
    {loaded : LoadedGrammar} :
    (registry.rememberPath path grammar?).2.Holds loaded ↔
      grammar?.map (fun g => ⟨registry.nextId, g⟩) = some loaded ∨
        registry.Holds loaded := by
  constructor
  · intro hHolds
    rcases hHolds with ⟨other, hMember⟩
    rcases List.mem_cons.mp hMember with hNew | hOld
    · exact Or.inl (Prod.mk.inj hNew).2.symm
    · exact Or.inr ⟨other, hOld⟩
  · intro hEither
    rcases hEither with hNew | hOld
    · refine ⟨path, ?_⟩
      rw [← hNew]
      exact List.mem_cons_self
    · rcases hOld with ⟨other, hMember⟩
      exact ⟨other, List.mem_cons_of_mem _ hMember⟩

theorem grows_rememberPath
    (registry : Registry)
    (path : Bytes)
    (grammar? : Option Grammar) :
    Grows registry (registry.rememberPath path grammar?).2 :=
  ⟨rfl, rfl, rfl,
    fun hHolds => holds_rememberPath_iff.mpr (Or.inr hHolds)⟩

/- The grammar that is remembered by a path has a new number. -/
theorem numbered_rememberPath
    {registry : Registry}
    (hNumbered : Numbered registry)
    (path : Bytes)
    (grammar? : Option Grammar) :
    Numbered (registry.rememberPath path grammar?).2 where
  byLanguage_holds := by
    intro key loaded hMember
    exact
      holds_rememberPath_iff.mpr
        (Or.inr (hNumbered.byLanguage_holds hMember))
  id_lt := by
    intro loaded hHolds
    change loaded.id < registry.nextId + 1
    rcases holds_rememberPath_iff.mp hHolds with hNew | hOld
    · rcases Option.map_eq_some_iff.mp hNew with ⟨g, _, hLoaded⟩
      rw [← hLoaded]
      exact Nat.lt_succ_self _
    · exact Nat.lt_succ_of_lt (hNumbered.id_lt hOld)
  eq_of_id_eq := by
    intro a b hA hB hId
    rcases holds_rememberPath_iff.mp hA with hNewA | hOldA
    · rcases holds_rememberPath_iff.mp hB with hNewB | hOldB
      · rw [hNewA] at hNewB
        exact Option.some.inj hNewB
      · rcases Option.map_eq_some_iff.mp hNewA with ⟨g, _, hLoaded⟩
        have hLt := hNumbered.id_lt hOldB
        rw [← hId, ← hLoaded] at hLt
        exact absurd hLt (Nat.lt_irrefl _)
    · rcases holds_rememberPath_iff.mp hB with hNewB | hOldB
      · rcases Option.map_eq_some_iff.mp hNewB with ⟨g, _, hLoaded⟩
        have hLt := hNumbered.id_lt hOldA
        rw [hId, ← hLoaded] at hLt
        exact absurd hLt (Nat.lt_irrefl _)
      · exact hNumbered.eq_of_id_eq hOldA hOldB hId

/- What a file holds may be remembered. -/
theorem remembers_rememberPath
    {files : Files}
    {registry : Registry}
    {path : Bytes}
    {grammar? : Option Grammar}
    (hRemembers : Remembers files registry)
    (hLoad : (loadFile registry.engine files path).1 = .ok grammar?) :
    Remembers files (registry.rememberPath path grammar?).2 where
  byPath_eq := by
    intro other result hMember
    rcases List.mem_cons.mp hMember with hNew | hOld
    · have hBoth := Prod.mk.inj hNew
      change (loadFile registry.engine files other).1 = _
      rw [hBoth.1, hBoth.2, hLoad]
      cases grammar? <;> rfl
    · exact hRemembers.byPath_eq hOld
  byLanguage_eq := hRemembers.byLanguage_eq
  byLanguage_holds :=
    (numbered_rememberPath (numbered_of_remembers hRemembers) path
      grammar?).byLanguage_holds
  id_lt :=
    (numbered_rememberPath (numbered_of_remembers hRemembers) path
      grammar?).id_lt
  eq_of_id_eq :=
    (numbered_rememberPath (numbered_of_remembers hRemembers) path
      grammar?).eq_of_id_eq

------------------------------------------------------------
-- Ways to Answer
------------------------------------------------------------

/-
  What comes of asking for the grammar of a language: the reply,
  the registry that is left, and the remarks.  It is remembered
  for the language, or nothing covers the language, or it is
  remembered for the file, or the file is loaded, or the load
  fails.
-/
inductive Asked
    (files : Files)
    (registry : Registry)
    (language : Bytes) :
    Except TableError (Option LoadedGrammar) → Registry →
      List Diagnostic → Prop where
| recalled
    {result : Option LoadedGrammar}
    (hLanguage :
      remembered? language.lower registry.byLanguage = some result) :
    Asked files registry language (.ok result) registry []
| uncovered
    (hLanguage : remembered? language.lower registry.byLanguage = none)
    (hDescriptor : registry.descriptor? language = none) :
    Asked files registry language (.ok none)
      (registry.rememberLanguage language.lower none) []
| shared
    {d : Descriptor}
    {result : Option LoadedGrammar}
    (hLanguage : remembered? language.lower registry.byLanguage = none)
    (hDescriptor : registry.descriptor? language = some d)
    (hPath : remembered? d.path registry.byPath = some result) :
    Asked files registry language (.ok result)
      (registry.rememberLanguage language.lower result) []
| loaded
    {d : Descriptor}
    {grammar? : Option Grammar}
    {remarks : List Diagnostic}
    (hLanguage : remembered? language.lower registry.byLanguage = none)
    (hDescriptor : registry.descriptor? language = some d)
    (hPath : remembered? d.path registry.byPath = none)
    (hFile :
      loadFile registry.engine files d.path =
        (.ok grammar?, remarks)) :
    Asked files registry language
      (.ok (registry.rememberPath d.path grammar?).1)
      ((registry.rememberPath d.path grammar?).2.rememberLanguage
        language.lower (registry.rememberPath d.path grammar?).1)
      (.loading language d.path ::
        remarks ++ mismatch d.scopeName grammar?)
| failed
    {d : Descriptor}
    {e : TableError}
    {remarks : List Diagnostic}
    (hLanguage : remembered? language.lower registry.byLanguage = none)
    (hDescriptor : registry.descriptor? language = some d)
    (hPath : remembered? d.path registry.byPath = none)
    (hFile : loadFile registry.engine files d.path = (.error e, remarks)) :
    Asked files registry language (.error e) registry
      (.loading language d.path :: remarks)

/- There is no other way. -/
theorem asked_grammarFor
    (files : Files)
    (registry : Registry)
    (language : Bytes) :
    Asked files registry language
      (registry.grammarFor files language).1
      (registry.grammarFor files language).2.1
      (registry.grammarFor files language).2.2 := by
  unfold grammarFor
  dsimp only
  cases hLanguage : remembered? language.lower registry.byLanguage with
  | some result => exact .recalled hLanguage
  | none =>
      cases hDescriptor : registry.descriptor? language with
      | none => exact .uncovered hLanguage hDescriptor
      | some d =>
          dsimp only
          cases hPath : remembered? d.path registry.byPath with
          | some result => exact .shared hLanguage hDescriptor hPath
          | none =>
              dsimp only
              rcases hFile : loadFile registry.engine files d.path with
                ⟨error | grammar?, remarks⟩
              · exact .failed hLanguage hDescriptor hPath hFile
              · exact .loaded hLanguage hDescriptor hPath hFile

/- The way is told by the files, the registry and the language. -/
theorem grammarFor_of_asked
    {files : Files}
    {registry next : Registry}
    {language : Bytes}
    {reply : Except TableError (Option LoadedGrammar)}
    {remarks : List Diagnostic}
    (hAsked : Asked files registry language reply next remarks) :
    registry.grammarFor files language = (reply, next, remarks) := by
  unfold grammarFor
  cases hAsked with
  | recalled hLanguage => simp only [hLanguage]
  | uncovered hLanguage hDescriptor =>
      simp only [hLanguage, hDescriptor]
  | shared hLanguage hDescriptor hPath =>
      simp only [hLanguage, hDescriptor, hPath]
  | loaded hLanguage hDescriptor hPath hFile =>
      simp only [hLanguage, hDescriptor, hPath, hFile]
  | failed hLanguage hDescriptor hPath hFile =>
      simp only [hLanguage, hDescriptor, hPath, hFile]

------------------------------------------------------------
-- Asking for a Grammar
------------------------------------------------------------

/-
  The grammar of a language is the one that the files hold, and
  the registry remembers it.
-/
structure Found
    (files : Files)
    (registry : Registry)
    (language : Bytes)
    (grammar? : Option LoadedGrammar)
    (next : Registry) : Prop where
  grammar_eq :
    grammar?.map LoadedGrammar.grammar = registry.held files language
  remembers : Remembers files next
  grows : Grows registry next
  holds : ∀ loaded ∈ grammar?, next.Holds loaded

/- A result is found once it is remembered for the language. -/
theorem found_rememberLanguage
    {files : Files}
    {registry next : Registry}
    {language : Bytes}
    {result : Option LoadedGrammar}
    (hRemembers : Remembers files next)
    (hGrows : Grows registry next)
    (hResult :
      result.map LoadedGrammar.grammar = registry.held files language)
    (hHolds : ∀ loaded ∈ result, next.Holds loaded) :
    Found files registry language result
      (next.rememberLanguage language.lower result) where
  grammar_eq := hResult
  remembers := by
    apply remembers_rememberLanguage hRemembers _ hHolds
    rw [hResult]
    apply Eq.symm
    exact
      held_of_descriptors hGrows.engine_eq hGrows.descriptors_eq
        hGrows.excluded_eq files language
  grows :=
    ⟨hGrows.engine_eq, hGrows.descriptors_eq, hGrows.excluded_eq,
      hGrows.holds⟩
  holds := hHolds

/- Asking for the grammar of a language finds it. -/
theorem grammarFor_remembers
    {files : Files}
    {registry : Registry}
    (hLoads :
      ∀ d ∈ registry.descriptors, Loads registry.engine files d)
    (hRemembers : Remembers files registry)
    (language : Bytes) :
    ∃ grammar? next remarks,
      registry.grammarFor files language =
          (.ok grammar?, next, remarks) ∧
        Found files registry language grammar? next := by
  have hAsked := asked_grammarFor files registry language
  rcases hOut : registry.grammarFor files language with
    ⟨reply, next, remarks⟩
  rw [hOut] at hAsked
  dsimp only at hAsked
  cases hAsked with
  | @recalled result hLanguage =>
      have hMember := mem_of_remembered? hLanguage
      refine ⟨result, registry, [], rfl, ?_⟩
      refine ⟨?_, hRemembers, grows_refl registry, ?_⟩
      · exact hRemembers.byLanguage_eq hMember language rfl
      · intro loaded hLoaded
        rw [hLoaded] at hMember
        exact hRemembers.byLanguage_holds hMember
  | uncovered hLanguage hDescriptor =>
      refine ⟨none, _, [], rfl, ?_⟩
      apply found_rememberLanguage hRemembers
      · exact grows_refl registry
      · simp [held, hDescriptor]
      · intro loaded hLoaded
        cases hLoaded
  | @shared d result hLanguage hDescriptor hPath =>
      have hMember := mem_of_remembered? hPath
      have hLoad := hRemembers.byPath_eq hMember
      refine ⟨result, _, [], rfl, ?_⟩
      apply found_rememberLanguage hRemembers
      · exact grows_refl registry
      · simp [held, hDescriptor, hLoad]
      · intro loaded hLoaded
        rw [hLoaded] at hMember
        exact ⟨d.path, hMember⟩
  | @loaded d grammar? _ hLanguage hDescriptor hPath hFile =>
      refine ⟨_, _, _, rfl, ?_⟩
      apply found_rememberLanguage
      · apply remembers_rememberPath hRemembers
        rw [hFile]
      · exact grows_rememberPath registry d.path grammar?
      · simp only [held, hDescriptor, hFile, rememberPath]
        cases grammar? <;> rfl
      · intro loaded hLoaded
        exact holds_rememberPath_iff.mpr (Or.inl hLoaded)
  | @failed d _ _ hLanguage hDescriptor hPath hFile =>
      -- Every file of the registry can be loaded.
      rcases hLoads d (mem_of_descriptor? hDescriptor) with
        ⟨grammar?, hLoad⟩
      rw [hFile] at hLoad
      cases hLoad

/-
  Asking for the grammar of a language keeps the numbers apart,
  whatever becomes of it, and the registry remembers the grammar
  that it finds.
-/
theorem numbered_grammarFor
    {registry : Registry}
    (hNumbered : Numbered registry)
    (files : Files)
    (language : Bytes) :
    let out := registry.grammarFor files language
    Numbered out.2.1 ∧
      Grows registry out.2.1 ∧
        ∀ loaded, out.1 = .ok (some loaded) → out.2.1.Holds loaded := by
  have hAsked := asked_grammarFor files registry language
  rcases hOut : registry.grammarFor files language with
    ⟨reply, next, remarks⟩
  rw [hOut] at hAsked
  dsimp only at hAsked ⊢
  cases hAsked with
  | recalled hLanguage =>
      refine ⟨hNumbered, grows_refl registry, ?_⟩
      intro loaded hLoaded
      have hMember := mem_of_remembered? hLanguage
      rw [Except.ok.inj hLoaded] at hMember
      exact hNumbered.byLanguage_holds hMember
  | uncovered hLanguage hDescriptor =>
      refine ⟨?_, ⟨rfl, rfl, rfl, fun hHolds => hHolds⟩, ?_⟩
      · exact
          numbered_rememberLanguage hNumbered (by simp) language.lower
      · intro loaded hLoaded
        cases hLoaded
  | @shared d result hLanguage hDescriptor hPath =>
      have hHolds : ∀ loaded ∈ result, registry.Holds loaded := by
        intro loaded hLoaded
        have hMember := mem_of_remembered? hPath
        rw [hLoaded] at hMember
        exact ⟨d.path, hMember⟩
      refine ⟨?_, ⟨rfl, rfl, rfl, fun hHeld => hHeld⟩, ?_⟩
      · exact
          numbered_rememberLanguage hNumbered hHolds language.lower
      · intro loaded hLoaded
        exact hHolds loaded (Except.ok.inj hLoaded)
  | @loaded d grammar? _ hLanguage hDescriptor hPath hFile =>
      have hNew := numbered_rememberPath hNumbered d.path grammar?
      have hGrows := grows_rememberPath registry d.path grammar?
      have hHolds :
          ∀ loaded ∈ (registry.rememberPath d.path grammar?).1,
            (registry.rememberPath d.path grammar?).2.Holds loaded :=
        fun loaded hLoaded =>
          holds_rememberPath_iff.mpr (Or.inl hLoaded)
      refine ⟨?_, ?_, ?_⟩
      · exact numbered_rememberLanguage hNew hHolds language.lower
      · exact
          ⟨hGrows.engine_eq, hGrows.descriptors_eq,
            hGrows.excluded_eq, hGrows.holds⟩
      · intro loaded hLoaded
        exact hHolds loaded (Except.ok.inj hLoaded)
  | failed hLanguage hDescriptor hPath hFile =>
      refine ⟨hNumbered, grows_refl registry, ?_⟩
      intro loaded hLoaded
      cases hLoaded

end Registry

end Marginalia

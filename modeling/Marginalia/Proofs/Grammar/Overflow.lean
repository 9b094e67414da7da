import Marginalia.Proofs.Grammar.Failures
import Marginalia.Proofs.Grammar.Reading

/-
  This file proves what becomes of any JSON value that is read as
  a grammar.

  A value without a scope name is no grammar.  Any other value is
  one, however its rules are made, with one exception: in a rule
  that compiling comes to, a group is named whose number needs
  more than 64 bits.

  Key definitions include:
    * `CaptureNames.Overflows`
    * `Json.Overflowing`
    * `Json.ReachesRule`, `Json.Overflows`
  The main statements are:
    * `CaptureNames.ofJson?_eq_none_iff`
    * `Declaration.ofJson_eq_unnumbered_iff`
    * `GrammarDeclaration.reaches_iff`
    * `Grammar.ofJson_eq_none_iff`, `Grammar.ofJson_eq_error_iff`
    * `Grammar.exists_ofJson_eq`
-/

namespace Marginalia

------------------------------------------------------------
-- Groups
------------------------------------------------------------

namespace CaptureNames

/- A member that names a group: a numeral, and a value with a name. -/
def Names (m : Bytes × Json) : Prop :=
  Decimal.isNumeral m.1 ∧ (m.2.text? "name").isSome

instance (m : Bytes × Json) : Decidable (Names m) :=
  inferInstanceAs (Decidable (_ ∧ _))

/- A group is named whose number needs more than 64 bits. -/
def Overflows (value : Json) : Prop :=
  ∃ members,
    value = .object members ∧
      ∃ m ∈ members, Names m ∧ Word.size64 ≤ Decimal.value m.1

/- A member that names no group is passed over. -/
theorem ofMembers?_cons_of_not_names
    {m : Bytes × Json}
    (hNames : ¬Names m)
    (names : CaptureNames)
    (members : List (Bytes × Json)) :
    ofMembers? names (m :: members) = ofMembers? names members := by
  rcases m with ⟨key, value⟩
  unfold Names at hNames
  dsimp only at hNames
  rw [ofMembers?]
  split
  · next hNumeral hName => simp [hNumeral, hName] at hNames
  · rfl

/- A member that names a group counts, if its number fits. -/
theorem ofMembers?_cons_of_names
    {m : Bytes × Json}
    (hNames : Names m)
    (names : CaptureNames)
    (members : List (Bytes × Json)) :
    ∃ name,
      m.2.text? "name" = some name ∧
        ofMembers? names (m :: members) =
          if Decimal.value m.1 < Word.size64 then
            ofMembers? (insert (Decimal.value m.1) name names) members
          else none := by
  rcases m with ⟨key, value⟩
  rcases hNames with ⟨hNumeral, hName⟩
  rcases Option.isSome_iff_exists.mp hName with ⟨name, hSome⟩
  refine ⟨name, hSome, ?_⟩
  dsimp only at hNumeral hSome ⊢
  rw [ofMembers?, hNumeral, hSome]

/- The names of groups do not depend on members that name none. -/
theorem ofMembers?_filter
    (members : List (Bytes × Json)) :
    ∀ names : CaptureNames,
      ofMembers? names (members.filter (fun m => Names m)) =
        ofMembers? names members := by
  induction members with
  | nil => exact fun _ => rfl
  | cons m members ih =>
      intro names
      by_cases hNames : Names m
      · rw [List.filter_cons_of_pos (by simpa using hNames)]
        rcases ofMembers?_cons_of_names hNames names members with
          ⟨name, hName, hCons⟩
        rcases
            ofMembers?_cons_of_names hNames names
              (members.filter (fun m => Names m)) with
          ⟨other, hOther, hConsFiltered⟩
        rw [hName] at hOther
        cases hOther
        rw [hCons, hConsFiltered, ih]
      · rw [List.filter_cons_of_neg (by simpa using hNames),
          ofMembers?_cons_of_not_names hNames, ih]

/- The names cannot be read just if one of the numbers is too large. -/
theorem ofMembers?_eq_none_iff
    (members : List (Bytes × Json)) :
    ∀ {names : CaptureNames},
      ofMembers? names members = none ↔
        ∃ m ∈ members, Names m ∧ Word.size64 ≤ Decimal.value m.1 := by
  induction members with
  | nil => simp [ofMembers?]
  | cons m members ih =>
      intro names
      rw [List.exists_mem_cons_iff]
      by_cases hNames : Names m
      · rcases ofMembers?_cons_of_names hNames names members with
          ⟨name, _, hCons⟩
        rw [hCons]
        split
        · next hFits =>
            rw [ih]
            have hNot : ¬Word.size64 ≤ Decimal.value m.1 :=
              Nat.not_le.mpr hFits
            simp [hNot]
        · next hLarge => simp [hNames, Nat.not_lt.mp hLarge]
      · rw [ofMembers?_cons_of_not_names hNames, ih]
        simp [hNames]

theorem ofJson?_eq_none_iff
    {value : Json} :
    ofJson? value = none ↔ Overflows value := by
  unfold Overflows
  cases value with
  | object members =>
      rw [ofJson?, ofMembers?_eq_none_iff]
      simp
  | _ => simp [ofJson?]

end CaptureNames

------------------------------------------------------------
-- Rules
------------------------------------------------------------

namespace Json

/- A group is named under a key whose number needs more than 64 bits. -/
def OverflowsAt (rule : Json) (key : String) : Prop :=
  ∃ value, rule.get? key = some value ∧ CaptureNames.Overflows value

/-
  The rules that cannot be read: a match or a region names such a
  group under one of the keys that are looked at.
-/
inductive Overflowing (rule : Json) : Prop where
| single
    {source : Bytes}
    (hInclude : rule.text? "include" = none)
    (hMatch : rule.text? "match" = some source)
    (hCaptures : rule.OverflowsAt "captures")
| region
    {source endSource : Bytes}
    (hInclude : rule.text? "include" = none)
    (hMatch : rule.text? "match" = none)
    (hBegin : rule.text? "begin" = some source)
    (hEnd : rule.text? "end" = some endSource)
    (hCaptures :
      rule.OverflowsAt "captures" ∨ rule.OverflowsAt "beginCaptures" ∨
        rule.OverflowsAt "endCaptures")

end Json

theorem CaptureNames.ofMember?_eq_none_iff
    {rule : Json}
    {key : String}
    (fallback : CaptureNames) :
    ofMember? rule key fallback = none ↔ rule.OverflowsAt key := by
  unfold ofMember? Json.OverflowsAt
  cases rule.get? key with
  | none => simp
  | some value => simp [ofJson?_eq_none_iff]

namespace Declaration

/- A region cannot be read just if one of its captures overflows. -/
theorem regionOfJson_eq_unnumbered_iff
    {rule : Json}
    {source : Bytes}
    {children : List Declaration} :
    regionOfJson rule source children = .unnumbered ↔
      (rule.text? "end").isSome ∧
        (rule.OverflowsAt "captures" ∨
          rule.OverflowsAt "beginCaptures" ∨
          rule.OverflowsAt "endCaptures") := by
  unfold regionOfJson
  cases hEnd : rule.text? "end" with
  | none => simp
  | some endSource =>
      simp only [Option.isSome_some, true_and]
      rw [← CaptureNames.ofMember?_eq_none_iff []]
      cases hBoth : CaptureNames.ofMember? rule "captures" [] with
      | none => simp
      | some both =>
          rw [← CaptureNames.ofMember?_eq_none_iff both,
            ← CaptureNames.ofMember?_eq_none_iff both]
          cases hOpening :
              CaptureNames.ofMember? rule "beginCaptures" both with
          | none => simp [hOpening]
          | some opening =>
              cases hClosing :
                  CaptureNames.ofMember? rule "endCaptures" both with
              | none => simp [hOpening, hClosing]
              | some closing => simp [hOpening, hClosing]

/- A value cannot be read as a rule just if its captures overflow. -/
theorem ofJson_eq_unnumbered_iff
    {rule : Json} :
    ofJson rule = .unnumbered ↔ rule.Overflowing := by
  rw [ofJson_eq_ofParts]
  constructor
  · intro hRule
    unfold ofParts at hRule
    split at hRule
    · cases hRule
    · next hInclude hMatch =>
        split at hRule
        · next hCaptures =>
            exact
              .single hInclude hMatch
                ((CaptureNames.ofMember?_eq_none_iff []).mp hCaptures)
        · cases hRule
    · next hInclude hMatch hBegin =>
        rcases regionOfJson_eq_unnumbered_iff.mp hRule with
          ⟨hEnd, hCaptures⟩
        rcases Option.isSome_iff_exists.mp hEnd with ⟨endSource, hSome⟩
        exact .region hInclude hMatch hBegin hSome hCaptures
    · split at hRule <;> cases hRule
  · rintro (⟨hInclude, hMatch, hCaptures⟩ |
      ⟨hInclude, hMatch, hBegin, hEnd, hCaptures⟩)
    · simp only [ofParts, hInclude, hMatch,
        (CaptureNames.ofMember?_eq_none_iff []).mpr hCaptures]
    · simp only [ofParts, hInclude, hMatch, hBegin]
      apply regionOfJson_eq_unnumbered_iff.mpr
      exact ⟨Option.isSome_of_eq_some hEnd, hCaptures⟩

end Declaration

------------------------------------------------------------
-- Grammars
------------------------------------------------------------

/-
  The values that compiling a grammar comes to: those listed at
  the root or in a rule, and the entries that are included.
-/
inductive Json.ReachesRule (doc : Json) : Json → Prop where
| root
    {rule : Json}
    (hMember : rule ∈ Declaration.itemsIn doc) :
    ReachesRule doc rule
| child
    {outer rule : Json}
    {header : Declaration.Header}
    {children : List Declaration}
    (hOuter : ReachesRule doc outer)
    (hRule : Declaration.ofJson outer = .rule header children)
    (hMember : rule ∈ Declaration.itemsIn outer) :
    ReachesRule doc rule
| entry
    {reference rule : Json}
    {name : Bytes}
    {entries : List (Bytes × Json)}
    (hReference : ReachesRule doc reference)
    (hInclude :
      reference.text? "include" = some (Ascii.hash :: name))
    (hRepository : doc.get? "repository" = some (.object entries))
    (hEntry : Json.Members.find? name entries = some rule) :
    ReachesRule doc rule

/-
  A value is meant as a grammar, but compiling it comes to a rule
  that cannot be read.
-/
def Json.Overflows (doc : Json) : Prop :=
  (doc.text? "scopeName").isSome ∧
    ∃ rule, doc.ReachesRule rule ∧ rule.Overflowing

namespace GrammarDeclaration

variable {d : GrammarDeclaration}
variable {doc : Json}

/-
  Compiling a declaration comes to what is read from the values
  that compiling its source comes to.
-/
theorem reaches_iff
    (hRead : ofJson? doc = some d)
    {c : Declaration} :
    d.Reaches c ↔
      ∃ rule, doc.ReachesRule rule ∧ Declaration.ofJson rule = c := by
  have hPatterns :
      d.patterns = (Declaration.itemsIn doc).map Declaration.ofJson := by
    rcases ofJson?_eq_some hRead with ⟨members, hDoc, _, hList, _⟩
    rw [hList, Declaration.patternsOf_eq, hDoc]
  constructor
  · intro hReached
    induction hReached with
    | root hMember =>
        rw [hPatterns] at hMember
        rcases List.mem_map.mp hMember with ⟨rule, hItem, hSame⟩
        exact ⟨rule, .root hItem, hSame⟩
    | child hRule hMember ih =>
        rcases ih with ⟨outer, hOuter, hSame⟩
        rw [Declaration.children_of_ofJson hSame] at hMember
        rcases List.mem_map.mp hMember with ⟨rule, hItem, hInner⟩
        exact ⟨rule, .child hOuter hSame hItem, hInner⟩
    | entry hReference hEntry ih =>
        rcases ih with ⟨reference, hOuter, hSame⟩
        rcases (entry?_eq_some_iff hRead).mp hEntry with
          ⟨entries, rule, hRepository, hFind, hInner⟩
        exact
          ⟨rule,
            .entry hOuter (Declaration.ofJson_eq_entry_iff.mp hSame)
              hRepository hFind,
            hInner⟩
  · rintro ⟨rule, hReached, rfl⟩
    induction hReached with
    | root hMember =>
        apply Reaches.root
        rw [hPatterns]
        exact List.mem_map_of_mem hMember
    | child hOuter hRule hMember ih =>
        rw [hRule] at ih
        apply Reaches.child ih
        rw [Declaration.children_of_ofJson hRule]
        exact List.mem_map_of_mem hMember
    | entry hReference hInclude hRepository hEntry ih =>
        rw [Declaration.ofJson_eq_entry_iff.mpr hInclude] at ih
        apply Reaches.entry ih
        exact
          (entry?_eq_some_iff hRead).mpr
            ⟨_, _, hRepository, hEntry, rfl⟩

end GrammarDeclaration

namespace Grammar

variable {engine : BoundedEngine}
variable {doc : Json}

/- A value is no grammar just if it has no scope name. -/
theorem ofJson_eq_none_iff :
    (ofJson engine doc).1 = .ok none ↔ doc.text? "scopeName" = none := by
  rw [← Option.isNone_iff_eq_none, ← Option.not_isSome,
    ← GrammarDeclaration.isSome_ofJson?]
  unfold ofJson
  cases GrammarDeclaration.ofJson? doc with
  | none => simp
  | some d =>
      dsimp only
      cases (ofDeclaration engine d).1 <;> simp [Except.map]

/- A grammar cannot be built from a value just if it overflows. -/
theorem ofJson_eq_error_iff
    {e : TableError} :
    (ofJson engine doc).1 = .error e ↔ doc.Overflows := by
  unfold ofJson Json.Overflows
  rw [← GrammarDeclaration.isSome_ofJson?]
  cases hRead : GrammarDeclaration.ofJson? doc with
  | none => simp
  | some d =>
      have hReaches := @GrammarDeclaration.reaches_iff d doc hRead
      have hError := @ofDeclaration_eq_error_iff d engine e
      simp only [hReaches, Declaration.ofJson_eq_unnumbered_iff]
        at hError
      rw [← hError]
      dsimp only
      cases (ofDeclaration engine d).1 <;> simp [Except.map]

/- Any other value is a grammar. -/
theorem exists_ofJson_eq
    (hName : (doc.text? "scopeName").isSome)
    (hOverflows : ¬doc.Overflows) :
    ∃ grammar, (ofJson engine doc).1 = .ok (some grammar) := by
  rcases hOutcome : (ofJson engine doc).1 with e | result
  · exact absurd (ofJson_eq_error_iff.mp hOutcome) hOverflows
  · cases result with
    | none =>
        rw [ofJson_eq_none_iff.mp hOutcome] at hName
        cases hName
    | some grammar => exact ⟨grammar, rfl⟩

end Grammar

end Marginalia

import Marginalia.Grammar.Declaration

/-
  This file says how the parts of a declaration are found in the
  JSON value that it is read from.

  Key definitions include:
    * `Declaration.itemsIn`
  The main statements are:
    * `Declaration.ofJson_eq_ofParts`
    * `Declaration.children_of_ofJson`
    * `Declaration.ofJson_eq_entry_iff`
    * `GrammarDeclaration.ofJson?_eq_some`
    * `GrammarDeclaration.entry?_eq_some_iff`
-/

namespace Marginalia

namespace Declaration

------------------------------------------------------------
-- Lists of Rules
------------------------------------------------------------

/- The declarations of some values, one by one. -/
theorem ofItems_eq_map
    (items : List Json) :
    ofItems items = items.map ofJson := by
  induction items with
  | nil => rfl
  | cons item items ih =>
      rw [ofItems, ih]
      rfl

/- The values in the list of rules of a value. -/
def itemsIn (value : Json) : List Json :=
  (value.array? "patterns").getD []

/- The list of rules of an object is the array under `patterns`. -/
theorem patternsOf_eq
    (members : List (Bytes × Json)) :
    patternsOf members = (itemsIn (.object members)).map ofJson := by
  induction members with
  | nil => rfl
  | cons m members ih =>
      rcases m with ⟨key, value⟩
      unfold itemsIn Json.array? Json.get? at ih ⊢
      simp only [patternsOf, Json.Members.find?]
      split
      · cases value <;> simp [itemsOf, ofItems_eq_map, Json.asArray?]
      · exact ih

/- A value is read by its parts; one that is no object has none. -/
theorem ofJson_eq_ofParts
    (value : Json) :
    ofJson value = ofParts value ((itemsIn value).map ofJson) := by
  cases value with
  | object members => rw [ofJson, patternsOf_eq]
  | _ => rfl

/- What is read into a rule is what is listed in it. -/
theorem children_of_ofParts
    {value : Json}
    {children others : List Declaration}
    {header : Header}
    (hRule : ofParts value children = .rule header others) :
    others = children := by
  unfold ofParts regionOfJson at hRule
  split at hRule
  · cases hRule
  · split at hRule
    · cases hRule
    · cases hRule
      rfl
  · split at hRule
    · cases hRule
    · dsimp only at hRule
      split at hRule
      · cases hRule
      · cases hRule
        rfl
  · split at hRule
    · cases hRule
    · cases hRule
      rfl

/- What is listed in a rule is read from its list of rules. -/
theorem children_of_ofJson
    {value : Json}
    {children : List Declaration}
    {header : Header}
    (hRule : ofJson value = .rule header children) :
    children = (itemsIn value).map ofJson := by
  rw [ofJson_eq_ofParts] at hRule
  exact children_of_ofParts hRule

end Declaration

------------------------------------------------------------
-- References
------------------------------------------------------------

/- A hash mark comes before the name of an entry. -/
theorem Reference.ofText_eq_entry_iff
    {text name : Bytes} :
    Reference.ofText text = .entry name ↔
      text = Ascii.hash :: name := by
  constructor
  · intro hText
    unfold ofText at hText
    split at hText
    · cases hText
      rfl
    · split at hText <;> cases hText
  · rintro rfl
    rfl

namespace Declaration

/- What a reference to an entry is read from. -/
theorem ofJson_eq_entry_iff
    {value : Json}
    {name : Bytes} :
    ofJson value = .reference (.entry name) ↔
      value.text? "include" = some (Ascii.hash :: name) := by
  rw [ofJson_eq_ofParts]
  constructor
  · intro hReference
    unfold ofParts regionOfJson at hReference
    split at hReference
    · next hInclude =>
        injection hReference with hText
        rw [hInclude, Reference.ofText_eq_entry_iff.mp hText]
    · split at hReference <;> cases hReference
    · split at hReference
      · cases hReference
      · dsimp only at hReference
        split at hReference <;> cases hReference
    · split at hReference <;> cases hReference
  · intro hInclude
    simp only [ofParts, hInclude]
    rfl

end Declaration

------------------------------------------------------------
-- Grammars
------------------------------------------------------------

namespace GrammarDeclaration

variable {d : GrammarDeclaration}
variable {doc : Json}

/- The parts of a grammar that is read. -/
theorem ofJson?_eq_some
    (hRead : ofJson? doc = some d) :
    ∃ members,
      doc = .object members ∧
        doc.text? "scopeName" = some d.scopeName ∧
        d.patterns = Declaration.patternsOf members ∧
        d.repository =
          ((doc.get? "repository").map entriesOf).getD [] := by
  unfold ofJson? at hRead
  split at hRead
  · next members scopeName hName =>
      cases hRead
      exact ⟨members, rfl, hName, rfl, rfl⟩
  · cases hRead

/- A grammar is read from a value with a scope name. -/
theorem isSome_ofJson?
    (doc : Json) :
    (ofJson? doc).isSome = (doc.text? "scopeName").isSome := by
  cases doc with
  | object members =>
      unfold ofJson?
      cases (Json.object members).text? "scopeName" <;> simp
  | _ => rfl

/- The entries of an object are its members. -/
theorem find?_entriesOf
    (members : List (Bytes × Json))
    (name : Bytes) :
    ((entriesOf (.object members)).find? (fun e => e.1 == name)).map
        Prod.snd =
      (Json.Members.find? name members).map Declaration.ofJson := by
  induction members with
  | nil => rfl
  | cons m members ih =>
      rcases m with ⟨key, value⟩
      rw [Json.Members.find?]
      simp only [entriesOf, List.map_cons, List.find?_cons] at ih ⊢
      by_cases hSame : key = name
      · simp [hSame]
      · simp only [hSame, if_false, beq_false_of_ne hSame]
        exact ih

/- An entry is read from the member with its name. -/
theorem entry?_eq_some_iff
    (hRead : ofJson? doc = some d)
    {name : Bytes}
    {c : Declaration} :
    d.entry? name = some c ↔
      ∃ entries value,
        doc.get? "repository" = some (.object entries) ∧
          Json.Members.find? name entries = some value ∧
            Declaration.ofJson value = c := by
  rcases ofJson?_eq_some hRead with ⟨members, _, _, _, hRepository⟩
  unfold entry?
  rw [hRepository]
  cases hMember : doc.get? "repository" with
  | none => simp
  | some repository =>
      cases repository with
      | object entries =>
          rw [Option.map_some, Option.getD_some, find?_entriesOf,
            Option.map_eq_some_iff]
          constructor
          · rintro ⟨value, hFind, hValue⟩
            exact ⟨entries, value, rfl, hFind, hValue⟩
          · rintro ⟨others, value, hOthers, hFind, hValue⟩
            cases hOthers
            exact ⟨value, hFind, hValue⟩
      | _ => simp [entriesOf]

end GrammarDeclaration

end Marginalia

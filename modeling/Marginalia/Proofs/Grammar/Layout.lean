import Mathlib.Data.List.Forall2
import Mathlib.Data.List.Nodup
import Marginalia.Proofs.Grammar.Drafts

/-
  This file says how the rules of a grammar are laid out: each
  site that compiling comes to has one number, and the patterns
  of a rule are the numbers of the sites that the declarations
  below it stand for.

  While a grammar is compiled, a rule has its number before its
  patterns have theirs.  So the invariant keeps the list of the
  sites numbered so far, and an action is described by the sites
  that it adds: they lie in some region or in entries that nobody
  referred to before, and their rules are settled when the action
  is done.  As regions do not overlap, no site is numbered twice.

  Key definitions include:
    * `Site.IsNumbered`
    * `RuleTable.Settled`, `RuleTable.LaidOut`
    * `Draft.LaidOut`, `Draft.Grows`
  The main statements are:
    * `Draft.grows_trans`
    * `Draft.grows_of_filled`
    * `Draft.length_unknown_lt`
-/

namespace Marginalia

------------------------------------------------------------
-- Tables
------------------------------------------------------------

/- The rule of a number is written at a site. -/
def Site.IsNumbered
    (sites : List Site)
    (id : RuleId)
    (site : Site) : Prop :=
  sites[id]? = some site

/- More sites change no number. -/
theorem Site.isNumbered_append
    {sites : List Site}
    {id : RuleId}
    {site : Site}
    (hNumbered : IsNumbered sites id site)
    (added : List Site) :
    IsNumbered (sites ++ added) id site := by
  have hLt : id < sites.length :=
    (List.getElem?_eq_some_iff.mp hNumbered).1
  unfold IsNumbered
  rw [List.getElem?_append_left hLt]
  exact hNumbered

theorem Site.rel_append
    {sites : List Site}
    {id? : Option RuleId}
    {site? : Option Site}
    (hNumbered : Option.Rel (IsNumbered sites) id? site?)
    (added : List Site) :
    Option.Rel (IsNumbered (sites ++ added)) id? site? := by
  cases hNumbered with
  | some hSome => exact Option.Rel.some (isNumbered_append hSome added)
  | none => exact Option.Rel.none

/- What one declaration stands for, as a list. -/
theorem Site.forall₂_toList
    {sites : List Site}
    {id? : Option RuleId}
    {site? : Option Site}
    (hNumbered : Option.Rel (IsNumbered sites) id? site?) :
    List.Forall₂ (IsNumbered sites) id?.toList site?.toList := by
  cases hNumbered with
  | some hSome => exact List.Forall₂.cons hSome List.Forall₂.nil
  | none => exact List.Forall₂.nil

theorem Site.forall₂_append
    {sites : List Site}
    {ids : List RuleId}
    {below : List Site}
    (hNumbered : List.Forall₂ (IsNumbered sites) ids below)
    (added : List Site) :
    List.Forall₂ (IsNumbered (sites ++ added)) ids below :=
  hNumbered.imp (fun _ _ hSome => isNumbered_append hSome added)

namespace RuleTable

/- The rule of a number is the one that its site asks for. -/
def Settled
    (engine : Engine)
    (d : GrammarDeclaration)
    (sites : List Site)
    (rules : Array Rule)
    (id : RuleId)
    (site : Site) : Prop :=
  ∃ declaration patterns,
    d.written? site = some declaration ∧
      rules[id]? =
        some
          (declaration.header.rule
            (declaration.header.kind.body engine) patterns) ∧
      List.Forall₂ (Site.IsNumbered sites) patterns
        (d.sitesBelow site)

/- A settled rule stays so while more sites are numbered. -/
theorem settled_append
    {engine : Engine}
    {d : GrammarDeclaration}
    {sites : List Site}
    {rules rules' : Array Rule}
    {id : RuleId}
    {site : Site}
    (hSettled : Settled engine d sites rules id site)
    (hRules : rules'[id]? = rules[id]?)
    (added : List Site) :
    Settled engine d (sites ++ added) rules' id site := by
  rcases hSettled with ⟨declaration, patterns, hWritten, hRule, hBelow⟩
  refine ⟨declaration, patterns, hWritten, ?_, ?_⟩
  · rw [hRules]
    exact hRule
  · exact Site.forall₂_append hBelow added

/-
  The rules of a table are those of some sites, each of which
  has one number, the root the first one.  An engine has compiled
  their patterns.
-/
structure LaidOut
    (engine : Engine)
    (d : GrammarDeclaration)
    (sites : List Site)
    (rules : Array Rule) : Prop where
  length_eq : sites.length = rules.size
  nodup : sites.Nodup
  root : Site.IsNumbered sites Grammar.rootId .root
  settled :
    ∀ {id : RuleId} {site : Site},
      Site.IsNumbered sites id site → Settled engine d sites rules id site

end RuleTable

------------------------------------------------------------
-- Tables in the Making
------------------------------------------------------------

namespace Draft

open RuleTable (Settled)

/-
  The sites numbered so far.  What is known of an entry is the
  number of its site, and all sites lie in entries that are known.
-/
structure LaidOut
    (d : GrammarDeclaration)
    (sites : List Site)
    (draft : Draft) : Prop where
  length_eq : sites.length = draft.rules.size
  nodup : sites.Nodup
  root : Site.IsNumbered sites Grammar.rootId .root
  known :
    ∀ {name : Bytes} {id? : Option RuleId},
      draft.known? name = some id? →
        Option.Rel (Site.IsNumbered sites) id? (d.entrySite? name)
  entry_known :
    ∀ site ∈ sites, ∀ name ∈ site.entryName?,
      (draft.known? name).isSome

/-
  From a table in the making with some sites, more sites are
  added.  They lie in a region or in entries that were unknown,
  and their rules are settled.  What was there before stays.
-/
structure Grows
    (engine : Engine)
    (d : GrammarDeclaration)
    (region : Site → Prop)
    (sites : List Site)
    (draft : Draft)
    (added : List Site)
    (next : Draft) : Prop where
  laidOut : next.LaidOut d (sites ++ added)
  rules_eq : ∀ id < sites.length, next.rules[id]? = draft.rules[id]?
  known_eq :
    ∀ name, (draft.known? name).isSome →
      next.known? name = draft.known? name
  settled :
    ∀ {id : Nat} {site : Site},
      sites.length ≤ id →
        Site.IsNumbered (sites ++ added) id site →
          Settled engine d (sites ++ added) next.rules id site
  inside :
    ∀ site ∈ added,
      region site ∨ ∃ name ∈ site.entryName?, draft.known? name = none

variable {engine : Engine}
variable {d : GrammarDeclaration}
variable {region : Site → Prop}
variable {sites added : List Site}
variable {draft middle next : Draft}

/- Remarks change nothing that is known. -/
theorem known?_of_sameTable
    (hSame : SameTable draft next)
    (name : Bytes) :
    next.known? name = draft.known? name := by
  unfold known?
  rw [hSame.entries_eq]

/- Remarks change no sites. -/
theorem laidOut_of_sameTable
    (hLaid : draft.LaidOut d sites)
    (hSame : SameTable draft next) :
    next.LaidOut d sites where
  length_eq := by
    rw [hSame.rules_eq]
    exact hLaid.length_eq
  nodup := hLaid.nodup
  root := hLaid.root
  known := by
    intro name id? hKnown
    rw [known?_of_sameTable hSame] at hKnown
    exact hLaid.known hKnown
  entry_known := by
    intro site hSite name hName
    rw [known?_of_sameTable hSame]
    exact hLaid.entry_known site hSite name hName

/- Remarks add no site. -/
theorem grows_of_sameTable
    (hLaid : draft.LaidOut d sites)
    (hSame : SameTable draft next) :
    Grows engine d region sites draft [] next where
  laidOut := by
    rw [List.append_nil]
    exact laidOut_of_sameTable hLaid hSame
  rules_eq := by
    intro id _
    rw [hSame.rules_eq]
  known_eq := by
    intro name _
    exact known?_of_sameTable hSame name
  settled := by
    intro id site hPast hNumbered
    rw [List.append_nil] at hNumbered
    have hLt := (List.getElem?_eq_some_iff.mp hNumbered).1
    omega
  inside := by
    intro site hSite
    cases hSite

/- Sites are added after remarks. -/
theorem grows_after_remarks
    (hSame : SameTable draft middle)
    (hGrows : Grows engine d region sites middle added next) :
    Grows engine d region sites draft added next where
  laidOut := hGrows.laidOut
  rules_eq := by
    intro id hOld
    rw [hGrows.rules_eq id hOld, hSame.rules_eq]
  known_eq := by
    intro name hKnown
    rw [← known?_of_sameTable hSame] at hKnown ⊢
    exact hGrows.known_eq name hKnown
  settled := hGrows.settled
  inside := by
    intro site hSite
    rcases hGrows.inside site hSite with hRegion | ⟨name, hName, hUnknown⟩
    · exact Or.inl hRegion
    · rw [known?_of_sameTable hSame] at hUnknown
      exact Or.inr ⟨name, hName, hUnknown⟩

/- Sites are added to a larger region too. -/
theorem grows_mono
    {inner : Site → Prop}
    (hGrows : Grows engine d inner sites draft added next)
    (hRegion : ∀ site, inner site → region site) :
    Grows engine d region sites draft added next :=
  { hGrows with
    inside := fun site hSite =>
      (hGrows.inside site hSite).imp_left (hRegion site) }

/- What was unknown is unknown before. -/
theorem known?_eq_none_of_grows
    {name : Bytes}
    (hGrows : Grows engine d region sites draft added next)
    (hUnknown : next.known? name = none) :
    draft.known? name = none := by
  cases hKnown : draft.known? name with
  | none => rfl
  | some id? =>
      have hSame := hGrows.known_eq name (by simp [hKnown])
      rw [hUnknown, hKnown] at hSame
      cases hSame

/- Sites are added by two actions in a row. -/
theorem grows_trans
    {more : List Site}
    (hFirst : Grows engine d region sites draft added middle)
    (hSecond : Grows engine d region (sites ++ added) middle more next) :
    Grows engine d region sites draft (added ++ more) next where
  laidOut := by
    rw [← List.append_assoc]
    exact hSecond.laidOut
  rules_eq := by
    intro id hOld
    rw [hSecond.rules_eq id (by simp; omega), hFirst.rules_eq id hOld]
  known_eq := by
    intro name hKnown
    have hMiddle := hFirst.known_eq name hKnown
    rw [← hMiddle] at hKnown
    rw [hSecond.known_eq name hKnown, hMiddle]
  settled := by
    intro id site hPast hNumbered
    rw [← List.append_assoc] at hNumbered ⊢
    by_cases hOld : id < (sites ++ added).length
    · have hBefore : Site.IsNumbered (sites ++ added) id site := by
        unfold Site.IsNumbered at hNumbered ⊢
        rw [List.getElem?_append_left hOld] at hNumbered
        exact hNumbered
      exact
        RuleTable.settled_append (hFirst.settled hPast hBefore)
          (hSecond.rules_eq id hOld) more
    · exact hSecond.settled (by omega) hNumbered
  inside := by
    intro site hSite
    rcases List.mem_append.mp hSite with hOld | hNew
    · exact hFirst.inside site hOld
    · rcases hSecond.inside site hNew with hRegion | ⟨name, hName, hUnknown⟩
      · exact Or.inl hRegion
      · exact
          Or.inr ⟨name, hName, known?_eq_none_of_grows hFirst hUnknown⟩

/-
  A rule is reserved, sites are added while its patterns are
  compiled, and then it is put in its place.
-/
theorem grows_of_filled
    {inner : Site → Prop}
    {site : Site}
    {last : Draft}
    (hOld : ∀ id < sites.length, middle.rules[id]? = draft.rules[id]?)
    (hKnown :
      ∀ name, (draft.known? name).isSome →
        middle.known? name = draft.known? name)
    (hInner : Grows engine d inner (sites ++ [site]) middle added last)
    (hSize : next.rules.size = last.rules.size)
    (hOthers :
      ∀ id, id ≠ sites.length → next.rules[id]? = last.rules[id]?)
    (hEntries : next.entries = last.entries)
    (hSettled :
      Settled engine d (sites ++ site :: added) next.rules
        sites.length site)
    (hSite : region site ∨ ∃ name ∈ site.entryName?, draft.known? name = none)
    (hRegion :
      ∀ other, inner other →
        region other ∨ ∃ name ∈ other.entryName?, draft.known? name = none) :
    Grows engine d region sites draft (site :: added) next := by
  have hAppend : sites ++ site :: added = sites ++ [site] ++ added := by
    simp
  have hSame : ∀ name, next.known? name = last.known? name := by
    intro name
    unfold known?
    rw [hEntries]
  have hLast : ∀ id < sites.length, last.rules[id]? = draft.rules[id]? := by
    intro id hId
    rw [hInner.rules_eq id (by simp; omega), hOld id hId]
  constructor
  case laidOut =>
    rw [hAppend]
    have hLaid := hInner.laidOut
    constructor
    · rw [hSize]
      exact hLaid.length_eq
    · exact hLaid.nodup
    · exact hLaid.root
    · intro name id? hName
      rw [hSame] at hName
      exact hLaid.known hName
    · intro other hOther name hName
      rw [hSame]
      exact hLaid.entry_known other hOther name hName
  case rules_eq =>
    intro id hId
    rw [hOthers id (by omega), hLast id hId]
  case known_eq =>
    intro name hName
    have hMiddle := hKnown name hName
    rw [← hMiddle] at hName
    rw [hSame, hInner.known_eq name hName, hMiddle]
  case settled =>
    intro id other hPast hNumbered
    by_cases hHere : id = sites.length
    · subst hHere
      have hSelf : site = other := by
        simpa [Site.IsNumbered] using hNumbered
      rw [← hSelf]
      exact hSettled
    · rw [hAppend] at hNumbered ⊢
      have hLater :=
        hInner.settled (by simp; omega) hNumbered
      have hStay :=
        RuleTable.settled_append hLater (hOthers id hHere) []
      rw [List.append_nil] at hStay
      exact hStay
  case inside =>
    intro other hOther
    rcases List.mem_cons.mp hOther with rfl | hAdded
    · exact hSite
    · rcases hInner.inside other hAdded with hIn | ⟨name, hName, hUnknown⟩
      · exact hRegion other hIn
      · refine Or.inr ⟨name, hName, ?_⟩
        cases hDraft : draft.known? name with
        | none => rfl
        | some id? =>
            have hMiddle := hKnown name (by simp [hDraft])
            rw [hUnknown, hDraft] at hMiddle
            cases hMiddle

------------------------------------------------------------
-- Entries Not Known Yet
------------------------------------------------------------

/- The names of the entries that nobody has referred to so far. -/
def unknown (d : GrammarDeclaration) (draft : Draft) : List Bytes :=
  (d.repository.map Prod.fst).filter
    (fun name => (draft.known? name).isNone)

/- Fewer entries are unknown later. -/
theorem length_unknown_le
    (hKnown :
      ∀ name, (draft.known? name).isSome →
        next.known? name = draft.known? name) :
    (unknown d next).length ≤ (unknown d draft).length := by
  apply List.Sublist.length_le
  apply List.monotone_filter_right
  intro name hUnknown
  cases hDraft : draft.known? name with
  | none => rfl
  | some id? =>
      rw [hKnown name (by simp [hDraft]), hDraft] at hUnknown
      cases hUnknown

/- One entry fewer is unknown once an entry is known. -/
theorem length_unknown_lt
    {name : Bytes}
    (hKnown :
      ∀ name, (draft.known? name).isSome →
        next.known? name = draft.known? name)
    (hMember : name ∈ d.repository.map Prod.fst)
    (hBefore : draft.known? name = none)
    (hAfter : (next.known? name).isSome) :
    (unknown d next).length < (unknown d draft).length := by
  have hSublist : (unknown d next).Sublist (unknown d draft) := by
    apply List.monotone_filter_right
    intro other hUnknown
    cases hDraft : draft.known? other with
    | none => rfl
    | some id? =>
        rw [hKnown other (by simp [hDraft]), hDraft] at hUnknown
        cases hUnknown
  apply Nat.lt_of_le_of_ne hSublist.length_le
  intro hLength
  have hSame := hSublist.eq_of_length hLength
  have hIn : name ∈ unknown d draft := by
    simp only [unknown, List.mem_filter]
    exact ⟨hMember, by simp [hBefore]⟩
  rw [← hSame] at hIn
  have hNone := (List.mem_filter.mp hIn).2
  rw [Option.isNone_iff_eq_none] at hNone
  rw [hNone] at hAfter
  cases hAfter

end Draft

end Marginalia

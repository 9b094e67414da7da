import Marginalia.Proofs.Grammar.Layout

/-
  This file proves what the rules of a compiled grammar are:
  compiling gives each site that it comes to one number, and the
  rule of that number is the one that the site asks for.

  The induction follows the compiling of declarations and lists,
  with entries as a parameter.  An entry that is compiled was
  unknown before, so there is one unknown entry fewer while it
  is compiled, and the depth given to entries is enough.

  Key definitions include:
    * `Draft.reserved`, `Draft.reservedFor`
    * `GrammarDeclaration.Numbers`
  The main statements are:
    * `Declaration.grows_compile`
    * `GrammarDeclaration.numbers_entry`
    * `Grammar.exists_laidOut`
-/

namespace Marginalia

------------------------------------------------------------
-- Reserving Rules
------------------------------------------------------------

namespace Draft

variable {engine : Engine}
variable {d : GrammarDeclaration}
variable {region : Site → Prop}
variable {sites : List Site}
variable {draft next : Draft}

/- The table with one more rule reserved. -/
def reserved (draft : Draft) : Draft :=
  { draft with rules := draft.rules.push Rule.hollow }

/- The table with one more rule reserved for an entry. -/
def reservedFor (draft : Draft) (name : Bytes) : Draft :=
  { draft.reserved with
    entries := (name, some draft.rules.size) :: draft.entries }

/- Rules that were there before a rule is reserved. -/
theorem rules_reserved
    (hLaid : draft.LaidOut d sites) :
    ∀ id < sites.length,
      draft.reserved.rules[id]? = draft.rules[id]? := by
  intro id hId
  rw [hLaid.length_eq] at hId
  simp [reserved, Array.getElem?_push, hId, Nat.ne_of_lt hId]

/- A new site has the next number. -/
theorem laidOut_reserved
    {site : Site}
    (hLaid : draft.LaidOut d sites)
    (hNew : site ∉ sites)
    (hEntry : ∀ name ∈ site.entryName?, (draft.known? name).isSome) :
    draft.reserved.LaidOut d (sites ++ [site]) where
  length_eq := by
    simp [reserved, hLaid.length_eq]
  nodup := by
    rw [List.nodup_append]
    refine ⟨hLaid.nodup, List.nodup_singleton site, ?_⟩
    intro other hOther last hLast
    rw [List.mem_singleton.mp hLast]
    rintro rfl
    exact hNew hOther
  root := Site.isNumbered_append hLaid.root [site]
  known := by
    intro name id? hKnown
    exact Site.rel_append (hLaid.known hKnown) [site]
  entry_known := by
    intro other hOther name hName
    rcases List.mem_append.mp hOther with hOld | hLast
    · exact hLaid.entry_known other hOld name hName
    · rw [List.mem_singleton.mp hLast] at hName
      exact hEntry name hName

/- What is known once an entry is reserved. -/
theorem known?_reservedFor
    (name other : Bytes) :
    (draft.reservedFor name).known? other =
      if name = other then some (some draft.rules.size)
      else draft.known? other := by
  by_cases hSame : name = other
  · simp [known?, reservedFor, hSame]
  · simp [known?, reservedFor, reserved, hSame]

/- An entry that is referred to for the first time. -/
theorem laidOut_reservedFor
    {name : Bytes}
    (hLaid : draft.LaidOut d sites)
    (hUnknown : draft.known? name = none)
    (hEntry : (d.entry? name).isSome) :
    (draft.reservedFor name).LaidOut d (sites ++ [.entry name]) where
  length_eq := by
    simp [reservedFor, reserved, hLaid.length_eq]
  nodup := by
    rw [List.nodup_append]
    refine ⟨hLaid.nodup, List.nodup_singleton _, ?_⟩
    intro other hOther last hLast hSame
    rw [List.mem_singleton.mp hLast] at hSame
    have hKnown := hLaid.entry_known other hOther name (by rw [hSame]; rfl)
    rw [hUnknown] at hKnown
    cases hKnown
  root := Site.isNumbered_append hLaid.root _
  known := by
    intro other id? hKnown
    rw [known?_reservedFor] at hKnown
    split at hKnown
    · next hSame =>
        cases hKnown
        subst hSame
        rcases Option.isSome_iff_exists.mp hEntry with ⟨c, hEntry⟩
        rw [GrammarDeclaration.entrySite?, hEntry]
        apply Option.Rel.some
        unfold Site.IsNumbered
        rw [← hLaid.length_eq]
        simp
    · exact Site.rel_append (hLaid.known hKnown) _
  entry_known := by
    intro other hOther last hLast
    rw [known?_reservedFor]
    split
    · rfl
    · rcases List.mem_append.mp hOther with hOld | hNew
      · exact hLaid.entry_known other hOld last hLast
      · rw [List.mem_singleton.mp hNew] at hLast
        next hOther =>
          exact absurd (Option.some.inj hLast) hOther

/- What was known before an entry is reserved. -/
theorem known?_eq_of_reservedFor
    {name : Bytes}
    (hUnknown : draft.known? name = none) :
    ∀ other, (draft.known? other).isSome →
      (draft.reservedFor name).known? other = draft.known? other := by
  intro other hKnown
  rw [known?_reservedFor, if_neg]
  rintro rfl
  rw [hUnknown] at hKnown
  cases hKnown

/-
  A site is numbered, other sites are added while its patterns
  are compiled, and then its rule is put in its place.
-/
theorem grows_of_assigned
    {inner : Site → Prop}
    {site : Site}
    {declaration : Declaration}
    {patterns : List RuleId}
    {added : List Site}
    {middle last : Draft}
    (hLaid : draft.LaidOut d sites)
    (hOld : ∀ id < sites.length, middle.rules[id]? = draft.rules[id]?)
    (hKnown :
      ∀ name, (draft.known? name).isSome →
        middle.known? name = draft.known? name)
    (hInner : middle.Grows engine d inner (sites ++ [site]) added last)
    (hWritten : d.written? site = some declaration)
    (hPatterns :
      List.Forall₂ (Site.IsNumbered (sites ++ [site] ++ added))
        patterns (d.sitesBelow site))
    (hAssign :
      Runs
        (assign draft.rules.size
          (declaration.header.rule
            (declaration.header.kind.body engine) patterns))
        last () next)
    (hSite : region site ∨ ∃ name ∈ site.entryName?, draft.known? name = none)
    (hRegion :
      ∀ other, inner other →
        region other ∨ ∃ name ∈ other.entryName?, draft.known? name = none) :
    draft.Grows engine d region sites (site :: added) next := by
  rw [runs_assign_iff, ← hLaid.length_eq] at hAssign
  subst hAssign
  apply grows_of_filled hOld hKnown hInner
  · simp
  · intro id hOther
    simp [Ne.symm hOther]
  · rfl
  · refine ⟨declaration, patterns, hWritten, ?_, ?_⟩
    · have hLt : sites.length < last.rules.size := by
        rw [← hInner.laidOut.length_eq]
        simp
      simp [hLt]
    · simpa using hPatterns
  · exact hSite
  · exact hRegion

end Draft

------------------------------------------------------------
-- Declarations
------------------------------------------------------------

/-
  Compiling an entry gives the number of its site, as long as
  no more than `depth` entries are unknown.
-/
def GrammarDeclaration.Numbers
    (engine : Engine)
    (d : GrammarDeclaration)
    (depth : Nat)
    (entry : Bytes → Draft.Action (Option RuleId)) : Prop :=
  ∀ {name : Bytes} {sites : List Site} {draft next : Draft}
    {id? : Option RuleId},
    draft.LaidOut d sites →
      (draft.unknown d).length ≤ depth →
        Draft.Runs (entry name) draft id? next →
          ∃ added,
            draft.Grows engine d (fun _ => False) sites added next ∧
              Option.Rel (Site.IsNumbered (sites ++ added)) id?
                (d.entrySite? name)

namespace Declaration

open Draft

variable {engine : Engine}
variable {d : GrammarDeclaration}
variable {depth : Nat}
variable {entry : Bytes → Draft.Action (Option RuleId)}
variable {sites : List Site}
variable {draft next : Draft}

/- Following a reference gives the number of the site it leads to. -/
theorem grows_target
    {r : Reference}
    {id? : Option RuleId}
    (hNumbers : d.Numbers engine depth entry)
    (hLaid : draft.LaidOut d sites)
    (hDepth : (draft.unknown d).length ≤ depth)
    (hRuns : Runs (target d.scopeName entry r) draft id? next) :
    ∃ added,
      draft.Grows engine d (fun _ => False) sites added next ∧
        Option.Rel (Site.IsNumbered (sites ++ added)) id?
          (d.referenceSite? r) := by
  cases r with
  | whole =>
      rcases runs_pure_iff.mp hRuns with ⟨rfl, rfl⟩
      refine ⟨[], grows_of_sameTable hLaid ⟨rfl, rfl⟩, ?_⟩
      exact Option.Rel.some (Site.isNumbered_append hLaid.root [])
  | entry name => exact hNumbers hLaid hDepth hRuns
  | foreign name =>
      rcases runs_bind_iff.mp hRuns with ⟨_, middle, hRemark, hRest⟩
      rcases runs_pure_iff.mp hRest with ⟨rfl, rfl⟩
      cases runs_remark_iff.mp hRemark
      exact
        ⟨[], grows_of_sameTable hLaid ⟨rfl, rfl⟩, Option.Rel.none⟩

/- Nothing is below a new site when it is numbered. -/
theorem not_under_of_vacant
    {new site : Site}
    (hVacant : ∀ site ∈ sites, ¬Site.Under new site)
    (hSite : site ∈ sites ++ [new])
    (index : Nat) :
    ¬Site.Under (.child new index) site := by
  intro hUnder
  rcases List.mem_append.mp hSite with hOld | hLast
  · exact hVacant site hOld (Site.under_of_under_child hUnder)
  · rw [List.mem_singleton.mp hLast] at hUnder
    exact Site.not_under_child new index hUnder

mutual

/-
  Compiling a declaration at a place in a list gives the number
  of the site that it stands for.  All sites that are added lie
  below that place or in entries that were unknown.
-/
theorem grows_compile
    (hNumbers : d.Numbers engine depth entry)
    {parent : Site}
    {index : Nat} :
    ∀ (c : Declaration) {sites : List Site} {draft next : Draft}
      {id? : Option RuleId},
      draft.LaidOut d sites →
        (draft.unknown d).length ≤ depth →
          d.written? (.child parent index) = some c →
            (∀ name ∈ parent.entryName?, (draft.known? name).isSome) →
              (∀ site ∈ sites,
                ¬Site.Under (.child parent index) site) →
                Runs (compile engine d.scopeName entry c) draft id? next →
                  ∃ added,
                    draft.Grows engine d (Site.Under (.child parent index))
                        sites added next ∧
                      Option.Rel (Site.IsNumbered (sites ++ added))
                        id? (d.standsFor? parent index c)
| .reference r, sites, draft, next, id?, hLaid, hDepth, _, _, _, hRuns => by
    rcases grows_target hNumbers hLaid hDepth hRuns with
      ⟨added, hGrows, hTarget⟩
    exact ⟨added, grows_mono hGrows (fun _ hNone => hNone.elim), hTarget⟩
| .rule header children, sites, draft, next, id?, hLaid, hDepth,
    hWritten, hKnown, hVacant, hRuns => by
    rcases runs_bind_iff.mp hRuns with ⟨body, first, hBody, hRest⟩
    rcases runs_bind_iff.mp hRest with ⟨id, second, hReserve, hRest⟩
    rcases runs_bind_iff.mp hRest with ⟨patterns, last, hAll, hRest⟩
    rcases runs_bind_iff.mp hRest with ⟨_, final, hAssign, hRest⟩
    rcases runs_pure_iff.mp hRest with ⟨rfl, rfl⟩
    rcases runs_reserve_iff.mp hReserve with ⟨rfl, rfl⟩
    rcases sameTable_of_runs_compile hBody with ⟨rfl, hSame⟩
    have hFirst := laidOut_of_sameTable hLaid hSame
    have hKnown' : ∀ name ∈ parent.entryName?, (first.known? name).isSome := by
      intro name hName
      rw [known?_of_sameTable hSame]
      exact hKnown name hName
    have hDepth' : (first.unknown d).length ≤ depth := by
      refine Nat.le_trans (length_unknown_le ?_) hDepth
      intro name _
      exact known?_of_sameTable hSame name
    have hSecond :=
      laidOut_reserved hFirst
        (fun hMember => hVacant _ hMember Site.Under.self) hKnown'
    have hList : (Declaration.rule header children).children.drop 0 = children :=
      rfl
    rcases
        grows_compileAll hNumbers hWritten children hSecond hDepth'
          hList hKnown'
          (fun site hSite j _ => not_under_of_vacant hVacant hSite j)
          hAll with
      ⟨added, hInner, hPatterns⟩
    have hBelow :
        List.Forall₂
          (Site.IsNumbered
            (sites ++ [.child parent index] ++ added))
          patterns (d.sitesBelow (.child parent index)) := by
      rw [GrammarDeclaration.sitesBelow, hWritten]
      exact hPatterns
    refine ⟨.child parent index :: added, ?_, ?_⟩
    · apply grows_after_remarks hSame
      apply
        grows_of_assigned hFirst (rules_reserved hFirst)
          (fun _ _ => rfl) hInner hWritten hBelow hAssign
          (Or.inl Site.Under.self)
      rintro other ⟨j, _, hUnder⟩
      exact Or.inl (Site.under_of_under_child hUnder)
    · apply Option.Rel.some
      unfold Site.IsNumbered
      rw [← hFirst.length_eq]
      simp
| .endless source, sites, draft, next, id?, hLaid, _, _, _, _, hRuns => by
    rcases runs_bind_iff.mp hRuns with ⟨_, middle, hRemark, hRest⟩
    rcases runs_pure_iff.mp hRest with ⟨rfl, rfl⟩
    cases runs_remark_iff.mp hRemark
    exact ⟨[], grows_of_sameTable hLaid ⟨rfl, rfl⟩, Option.Rel.none⟩
| .unnumbered, sites, draft, next, id?, _, _, _, _, _, hRuns =>
    absurd hRuns not_runs_throw
| .invalid, sites, draft, next, id?, hLaid, _, _, _, _, hRuns => by
    rcases runs_pure_iff.mp hRuns with ⟨rfl, rfl⟩
    exact ⟨[], grows_of_sameTable hLaid ⟨rfl, rfl⟩, Option.Rel.none⟩

/-
  Compiling a list from a place on gives the numbers of the
  sites that its declarations stand for.
-/
theorem grows_compileAll
    (hNumbers : d.Numbers engine depth entry)
    {parent : Site}
    {outer : Declaration}
    (hOuter : d.written? parent = some outer) :
    ∀ (cs : List Declaration) {index : Nat} {sites : List Site}
      {draft next : Draft} {ids : List RuleId},
      draft.LaidOut d sites →
        (draft.unknown d).length ≤ depth →
          outer.children.drop index = cs →
            (∀ name ∈ parent.entryName?, (draft.known? name).isSome) →
              (∀ site ∈ sites, ∀ j, index ≤ j →
                ¬Site.Under (.child parent j) site) →
                Runs (compileAll engine d.scopeName entry cs) draft ids
                    next →
                  ∃ added,
                    draft.Grows engine d
                        (fun site =>
                          ∃ j, index ≤ j ∧
                            Site.Under (.child parent j) site)
                        sites added next ∧
                      List.Forall₂
                        (Site.IsNumbered (sites ++ added)) ids
                        (d.sitesFrom parent index cs)
| [], index, sites, draft, next, ids, hLaid, _, _, _, _, hRuns => by
    rcases runs_pure_iff.mp hRuns with ⟨rfl, rfl⟩
    exact
      ⟨[], grows_of_sameTable hLaid ⟨rfl, rfl⟩, List.Forall₂.nil⟩
| c :: cs, index, sites, draft, next, ids, hLaid, hDepth, hList,
    hKnown, hVacant, hRuns => by
    rcases runs_bind_iff.mp hRuns with ⟨id?, middle, hFirst, hRest⟩
    rcases runs_bind_iff.mp hRest with ⟨rest, last, hAll, hRest⟩
    rcases runs_pure_iff.mp hRest with ⟨rfl, rfl⟩
    have hWritten := GrammarDeclaration.written?_child hOuter hList
    rcases
        grows_compile hNumbers c hLaid hDepth hWritten hKnown
          (fun site hSite => hVacant site hSite index (Nat.le_refl _))
          hFirst with
      ⟨added, hGrows, hNumbered⟩
    have hDepth' : (middle.unknown d).length ≤ depth :=
      Nat.le_trans (length_unknown_le hGrows.known_eq) hDepth
    have hKnown' : ∀ name ∈ parent.entryName?, (middle.known? name).isSome := by
      intro name hName
      have hBefore := hKnown name hName
      rw [hGrows.known_eq name hBefore]
      exact hBefore
    have hVacant' :
        ∀ site ∈ sites ++ added, ∀ j, index + 1 ≤ j →
          ¬Site.Under (.child parent j) site := by
      intro site hSite j hPast hUnder
      rcases List.mem_append.mp hSite with hOld | hNew
      · exact hVacant site hOld j (by omega) hUnder
      · rcases hGrows.inside site hNew with hHere | ⟨name, hName, hUnknown⟩
        · have hSame := Site.index_eq_of_under hHere hUnder
          omega
        · rw [Site.entryName?_of_under hUnder] at hName
          have hBefore := hKnown name hName
          rw [hUnknown] at hBefore
          cases hBefore
    rcases
        grows_compileAll hNumbers hOuter cs hGrows.laidOut hDepth'
          (by rw [← List.drop_drop, hList]; rfl) hKnown' hVacant' hAll with
      ⟨more, hMore, hRest⟩
    refine ⟨added ++ more, ?_, ?_⟩
    · refine
        grows_trans
          (grows_mono hGrows
            (fun site hUnder => ⟨index, Nat.le_refl _, hUnder⟩))
          (grows_mono hMore ?_)
      rintro site ⟨j, hPast, hUnder⟩
      exact ⟨j, by omega, hUnder⟩
    · rw [← List.append_assoc]
      have hHere :=
        Site.forall₂_append (Site.forall₂_toList hNumbered) more
      exact List.rel_append hHere hRest

end

section Entries

variable {name : Bytes}
variable {c : Declaration}

/- An entry that is no rule keeps the hollow rule it was given. -/
theorem grows_of_hollow
    (hLaid : draft.LaidOut d sites)
    (hUnknown : draft.known? name = none)
    (hEntry : d.entry? name = some c)
    (hChildren : c.children = [])
    (hHollow : c.header.rule (c.header.kind.body engine) [] = Rule.hollow)
    (hSame : SameTable (draft.reservedFor name) next) :
    draft.Grows engine d (fun _ => False) sites [.entry name] next := by
  have hReserved :=
    laidOut_reservedFor hLaid hUnknown (by simp [hEntry])
  have hOld : ∀ id < sites.length,
      (draft.reservedFor name).rules[id]? = draft.rules[id]? :=
    rules_reserved hLaid
  have hInner :
      (draft.reservedFor name).Grows engine d (fun _ => False)
        (sites ++ [.entry name]) [] (draft.reservedFor name) :=
    grows_of_sameTable hReserved ⟨rfl, rfl⟩
  apply
    grows_of_filled hOld (known?_eq_of_reservedFor hUnknown) hInner
  · rw [hSame.rules_eq]
  · intro id _
    rw [hSame.rules_eq]
  · exact hSame.entries_eq
  · refine ⟨c, [], hEntry, ?_, ?_⟩
    · rw [hSame.rules_eq, hHollow, hLaid.length_eq]
      simp [reservedFor, reserved]
    · simp [GrammarDeclaration.sitesBelow,
        GrammarDeclaration.written?, hEntry, hChildren,
        GrammarDeclaration.sitesFrom]
  · exact Or.inr ⟨name, rfl, hUnknown⟩
  · exact fun _ hNone => hNone.elim

/-
  Compiling a declaration into a number that an entry has taken
  settles the entry.  All sites that are added lie in entries
  that were unknown.
-/
theorem grows_compileInto
    (hNumbers : d.Numbers engine depth entry)
    (hLaid : draft.LaidOut d sites)
    (hUnknown : draft.known? name = none)
    (hEntry : d.entry? name = some c)
    (hDepth : ((draft.reservedFor name).unknown d).length ≤ depth)
    (hRuns :
      Runs (compileInto engine d.scopeName entry draft.rules.size c)
        (draft.reservedFor name) () next) :
    ∃ added,
      draft.Grows engine d (fun _ => False) sites
        (.entry name :: added) next := by
  have hReserved :=
    laidOut_reservedFor hLaid hUnknown (by simp [hEntry])
  have hOld : ∀ id < sites.length,
      (draft.reservedFor name).rules[id]? = draft.rules[id]? :=
    rules_reserved hLaid
  have hKnown := known?_eq_of_reservedFor hUnknown
  have hNew : ∃ other ∈ (Site.entry name).entryName?, draft.known? other = none :=
    ⟨name, rfl, hUnknown⟩
  cases c with
  | reference r =>
      rcases runs_bind_iff.mp hRuns with ⟨id?, middle, hTarget, hAssign⟩
      rcases grows_target hNumbers hReserved hDepth hTarget with
        ⟨added, hInner, hNumbered⟩
      refine ⟨added, ?_⟩
      have hBelow :
          List.Forall₂
            (Site.IsNumbered (sites ++ [.entry name] ++ added))
            id?.toList (d.sitesBelow (.entry name)) := by
        simpa [GrammarDeclaration.sitesBelow,
          GrammarDeclaration.written?, hEntry, children,
          GrammarDeclaration.sitesFrom,
          GrammarDeclaration.standsFor?] using
          Site.forall₂_toList hNumbered
      exact
        grows_of_assigned hLaid hOld hKnown hInner hEntry hBelow
          hAssign (Or.inr hNew) (fun _ hNone => hNone.elim)
  | rule header children =>
      rcases runs_bind_iff.mp hRuns with ⟨body, first, hBody, hRest⟩
      rcases runs_bind_iff.mp hRest with ⟨patterns, last, hAll, hAssign⟩
      rcases sameTable_of_runs_compile hBody with ⟨rfl, hSame⟩
      have hFirst := laidOut_of_sameTable hReserved hSame
      have hDepth' : (first.unknown d).length ≤ depth := by
        refine Nat.le_trans (length_unknown_le ?_) hDepth
        intro other _
        exact known?_of_sameTable hSame other
      have hTaken :
          ∀ other ∈ (Site.entry name).entryName?,
            (first.known? other).isSome := by
        rintro other hOther
        cases hOther
        rw [known?_of_sameTable hSame, known?_reservedFor, if_pos rfl]
        rfl
      have hVacant : ∀ site ∈ sites, ¬Site.Under (.entry name) site := by
        intro site hSite hUnder
        have hBefore :=
          hLaid.entry_known site hSite name
            (Site.entryName?_of_under hUnder)
        rw [hUnknown] at hBefore
        cases hBefore
      have hWritten :
          d.written? (.entry name) =
            some (Declaration.rule header children) := hEntry
      have hList :
          (Declaration.rule header children).children.drop 0 =
            children := rfl
      rcases
          grows_compileAll hNumbers hWritten children hFirst hDepth' hList
            hTaken
            (fun site hSite j _ => not_under_of_vacant hVacant hSite j)
            hAll with
        ⟨added, hInner, hPatterns⟩
      have hBelow :
          List.Forall₂
            (Site.IsNumbered (sites ++ [.entry name] ++ added))
            patterns (d.sitesBelow (.entry name)) := by
        rw [GrammarDeclaration.sitesBelow, hWritten]
        exact hPatterns
      have hFirstOld :
          ∀ id < sites.length, first.rules[id]? = draft.rules[id]? := by
        intro id hId
        rw [hSame.rules_eq, hOld id hId]
      have hFirstKnown :
          ∀ other, (draft.known? other).isSome →
            first.known? other = draft.known? other := by
        intro other hOther
        rw [known?_of_sameTable hSame, hKnown other hOther]
      refine ⟨added, ?_⟩
      apply
        grows_of_assigned hLaid hFirstOld hFirstKnown hInner hWritten
          hBelow hAssign (Or.inr hNew)
      rintro other ⟨j, _, hUnder⟩
      exact
        Or.inr ⟨name, Site.entryName?_of_under hUnder, hUnknown⟩
  | endless source =>
      cases runs_remark_iff.mp hRuns
      exact ⟨[], grows_of_hollow hLaid hUnknown hEntry rfl rfl ⟨rfl, rfl⟩⟩
  | unnumbered => exact absurd hRuns not_runs_throw
  | invalid =>
      rcases runs_pure_iff.mp hRuns with ⟨_, rfl⟩
      exact ⟨[], grows_of_hollow hLaid hUnknown hEntry rfl rfl ⟨rfl, rfl⟩⟩

end Entries

end Declaration

------------------------------------------------------------
-- Entries
------------------------------------------------------------

namespace GrammarDeclaration

open Draft

variable {d : GrammarDeclaration}

/- An entry that is there has its name in the repository. -/
theorem mem_names_of_declared
    {name : Bytes}
    {c : Declaration}
    (hEntry : d.entry? name = some c) :
    name ∈ d.repository.map Prod.fst := by
  rcases Option.map_eq_some_iff.mp hEntry with ⟨e, hFind, _⟩
  have hName := List.find?_some hFind
  rw [beq_iff_eq] at hName
  exact List.mem_map.mpr ⟨e, List.mem_of_find?_eq_some hFind, hName⟩

/- If no entry is unknown, one that is there is known. -/
theorem isSome_known?
    {name : Bytes}
    {draft : Draft}
    (hNone : (draft.unknown d).length = 0)
    (hEntry : (d.entry? name).isSome) :
    (draft.known? name).isSome := by
  cases hKnown : draft.known? name with
  | some id? => rfl
  | none =>
      rcases Option.isSome_iff_exists.mp hEntry with ⟨c, hDeclared⟩
      have hMember : name ∈ draft.unknown d := by
        simp only [unknown, List.mem_filter]
        exact ⟨mem_names_of_declared hDeclared, by simp [hKnown]⟩
      rw [List.length_eq_zero_iff.mp hNone] at hMember
      cases hMember

/- What is known once an entry is missed. -/
theorem known?_missed
    (draft : Draft)
    (remarks : List Diagnostic)
    (name other : Bytes) :
    ({ draft with
        entries := (name, none) :: draft.entries
        remarks := remarks } : Draft).known? other =
      if name = other then some none else draft.known? other := by
  by_cases hSame : name = other
  · simp [known?, hSame]
  · simp [known?, hSame]

/- An entry that is not there is recorded, and no site is added. -/
theorem grows_of_missing
    {name : Bytes}
    {sites : List Site}
    {draft : Draft}
    (hLaid : draft.LaidOut d sites)
    (hUnknown : draft.known? name = none)
    (hEntry : d.entry? name = none)
    (remarks : List Diagnostic) :
    draft.Grows engine d (fun _ => False) sites []
      { draft with
        entries := (name, none) :: draft.entries
        remarks := remarks } := by
  have hKnown :
      ∀ other, (draft.known? other).isSome →
        ({ draft with
            entries := (name, none) :: draft.entries
            remarks := remarks } : Draft).known? other =
          draft.known? other := by
    intro other hOther
    rw [known?_missed, if_neg]
    rintro rfl
    rw [hUnknown] at hOther
    cases hOther
  constructor
  case laidOut =>
    rw [List.append_nil]
    refine ⟨hLaid.length_eq, hLaid.nodup, hLaid.root, ?_, ?_⟩
    · intro other id? hOther
      rw [known?_missed] at hOther
      split at hOther
      · next hSame =>
          cases hOther
          subst hSame
          rw [entrySite?, hEntry]
          exact Option.Rel.none
      · exact hLaid.known hOther
    · intro site hSite other hOther
      have hBefore := hLaid.entry_known site hSite other hOther
      rw [hKnown other hBefore]
      exact hBefore
  case rules_eq =>
    intro id _
    rfl
  case known_eq => exact hKnown
  case settled =>
    intro id site hPast hNumbered
    rw [List.append_nil] at hNumbered
    have hLt := (List.getElem?_eq_some_iff.mp hNumbered).1
    omega
  case inside =>
    intro site hSite
    cases hSite

/-
  Compiling an entry gives the number of its site.  The induction
  is on the number of entries that may be unknown.
-/
theorem numbers_entry :
    ∀ depth : Nat, d.Numbers engine depth (d.entry engine depth)
| 0, name, sites, draft, next, id?, hLaid, hDepth, hRuns => by
    rcases runs_bind_iff.mp hRuns with ⟨_, _, hGet, hRest⟩
    rcases runs_get_iff.mp hGet with ⟨rfl, rfl⟩
    rcases runs_pure_iff.mp hRest with ⟨rfl, rfl⟩
    refine ⟨[], grows_of_sameTable hLaid ⟨rfl, rfl⟩, ?_⟩
    rw [List.append_nil]
    cases hKnown : draft.known? name with
    | some id? => exact hLaid.known hKnown
    | none =>
        cases hEntry : d.entry? name with
        | none =>
            rw [entrySite?, hEntry]
            exact Option.Rel.none
        | some c =>
            have hSome :=
              isSome_known? (Nat.le_zero.mp hDepth)
                (Option.isSome_of_eq_some hEntry)
            rw [hKnown] at hSome
            cases hSome
| depth + 1, name, sites, draft, next, id?, hLaid, hDepth, hRuns => by
    rcases runs_bind_iff.mp hRuns with ⟨_, _, hGet, hRest⟩
    rcases runs_get_iff.mp hGet with ⟨rfl, rfl⟩
    split at hRest
    · next known hKnown =>
        rcases runs_pure_iff.mp hRest with ⟨rfl, rfl⟩
        refine ⟨[], grows_of_sameTable hLaid ⟨rfl, rfl⟩, ?_⟩
        rw [List.append_nil]
        exact hLaid.known hKnown
    · next hUnknown =>
        split at hRest
        · next hEntry =>
            rcases runs_bind_iff.mp hRest with ⟨_, _, hRemark, hRest⟩
            rcases runs_bind_iff.mp hRest with ⟨_, _, hRecord, hRest⟩
            rcases runs_pure_iff.mp hRest with ⟨rfl, rfl⟩
            cases runs_remark_iff.mp hRemark
            cases runs_record_iff.mp hRecord
            refine ⟨[], grows_of_missing hLaid hUnknown hEntry _, ?_⟩
            rw [entrySite?, hEntry]
            exact Option.Rel.none
        · next c hEntry =>
            rcases runs_bind_iff.mp hRest with ⟨id, _, hReserve, hRest⟩
            rcases runs_bind_iff.mp hRest with ⟨_, _, hRecord, hRest⟩
            rcases runs_bind_iff.mp hRest with ⟨_, last, hInto, hRest⟩
            rcases runs_pure_iff.mp hRest with ⟨rfl, rfl⟩
            rcases runs_reserve_iff.mp hReserve with ⟨rfl, rfl⟩
            cases runs_record_iff.mp hRecord
            have hLess :
                ((draft.reservedFor name).unknown d).length <
                  (draft.unknown d).length :=
              length_unknown_lt (known?_eq_of_reservedFor hUnknown)
                (mem_names_of_declared hEntry) hUnknown
                (by rw [known?_reservedFor, if_pos rfl]; rfl)
            rcases
                Declaration.grows_compileInto (numbers_entry depth) hLaid
                  hUnknown hEntry (by omega) hInto with
              ⟨added, hGrows⟩
            refine ⟨.entry name :: added, hGrows, ?_⟩
            rw [entrySite?, hEntry]
            apply Option.Rel.some
            unfold Site.IsNumbered
            rw [← hLaid.length_eq]
            simp

end GrammarDeclaration

------------------------------------------------------------
-- Grammars
------------------------------------------------------------

namespace Grammar

open Draft

/- The table that holds the root and nothing else. -/
theorem laidOut_start
    (d : GrammarDeclaration) :
    Draft.start.LaidOut d [.root] where
  length_eq := rfl
  nodup := List.nodup_singleton _
  root := rfl
  known := by
    intro name id? hKnown
    cases hKnown
  entry_known := by
    intro site hSite name hName
    rw [List.mem_singleton.mp hSite] at hName
    cases hName

/- There are no more unknown entries than there are entries. -/
theorem length_unknown_start
    (d : GrammarDeclaration) :
    (Draft.start.unknown d).length ≤ d.repository.length + 1 := by
  have hNames :=
    List.length_filter_le
      (fun name => (Draft.start.known? name).isNone)
      (d.repository.map Prod.fst)
  rw [List.length_map] at hNames
  exact Nat.le_succ_of_le hNames

/-
  Once the rules below the root are settled, the root itself is
  put in its place.
-/
theorem laidOut_of_grows
    {engine : Engine}
    {d : GrammarDeclaration}
    {region : Site → Prop}
    {added : List Site}
    {last : Draft}
    {patterns : List RuleId}
    (hGrows : Draft.start.Grows engine d region [.root] added last)
    (hPatterns :
      List.Forall₂ (Site.IsNumbered ([.root] ++ added)) patterns
        (d.sitesBelow .root)) :
    RuleTable.LaidOut engine d ([.root] ++ added)
      (last.rules.setIfInBounds rootId
        { Rule.hollow with name := d.scopeName, patterns := patterns }) where
  length_eq := by
    rw [Array.size_setIfInBounds]
    exact hGrows.laidOut.length_eq
  nodup := hGrows.laidOut.nodup
  root := hGrows.laidOut.root
  settled := by
    intro id site hNumbered
    by_cases hRoot : id = 0
    · subst hRoot
      have hSite : Site.root = site :=
        Option.some.inj (hGrows.laidOut.root.symm.trans hNumbered)
      subst hSite
      have hLt : 0 < last.rules.size := by
        rw [← hGrows.laidOut.length_eq]
        simp
      refine ⟨d.rootDeclaration, patterns, rfl, ?_, hPatterns⟩
      simp [rootId, hLt, GrammarDeclaration.rootDeclaration,
        Declaration.header, Declaration.Header.rule,
        Declaration.Kind.body, Rule.hollow]
    · have hPast : [Site.root].length ≤ id := by
        change 1 ≤ id
        exact Nat.pos_of_ne_zero hRoot
      have hSame :
          (last.rules.setIfInBounds rootId
              { Rule.hollow with
                name := d.scopeName
                patterns := patterns })[id]? =
            last.rules[id]? := by
        simp [rootId, Ne.symm hRoot]
      have hStay :=
        RuleTable.settled_append (hGrows.settled hPast hNumbered) hSame []
      rw [List.append_nil] at hStay
      exact hStay

/-
  The rules of a grammar that is built are those of the sites
  that compiling comes to.
-/
theorem exists_laidOut
    {engine : BoundedEngine}
    {d : GrammarDeclaration}
    {grammar : Grammar}
    {remarks : List Diagnostic}
    (hBuilt : ofDeclaration engine d = (.ok grammar, remarks)) :
    ∃ sites rules,
      RuleTable.LaidOut engine.toEngine d sites rules ∧
        grammar = ⟨engine, d.scopeName, RuleTable.flatten rules⟩ := by
  unfold ofDeclaration at hBuilt
  split at hBuilt
  · next draft hRun =>
      cases hBuilt
      rcases runs_bind_iff.mp hRun with ⟨patterns, last, hAll, hAssign⟩
      rw [runs_assign_iff] at hAssign
      subst hAssign
      have hOuter : d.written? .root = some d.rootDeclaration := rfl
      have hVacant :
          ∀ site ∈ [Site.root], ∀ j, 0 ≤ j →
            ¬Site.Under (.child .root j) site := by
        intro site hSite j _ hUnder
        rw [List.mem_singleton.mp hSite] at hUnder
        exact Site.not_under_child _ _ hUnder
      rcases
          Declaration.grows_compileAll
            (GrammarDeclaration.numbers_entry (d.repository.length + 1))
            hOuter d.patterns (laidOut_start d)
            (length_unknown_start d) rfl
            (fun name hName => by cases hName) hVacant hAll with
        ⟨added, hGrows, hPatterns⟩
      exact ⟨_, _, laidOut_of_grows hGrows hPatterns, rfl⟩
  · cases hBuilt

/- A grammar that is built is built from a declaration. -/
theorem exists_ofDeclaration_eq
    {engine : BoundedEngine}
    {doc : Json}
    {grammar : Grammar}
    {remarks : List Diagnostic}
    (hBuilt : ofJson engine doc = (.ok (some grammar), remarks)) :
    ∃ d,
      GrammarDeclaration.ofJson? doc = some d ∧
        ofDeclaration engine d = (.ok grammar, remarks) := by
  unfold ofJson at hBuilt
  split at hBuilt
  · cases hBuilt
  · next d hRead =>
      refine ⟨d, hRead, ?_⟩
      rcases hResult : ofDeclaration engine d with ⟨result, made⟩
      rw [hResult] at hBuilt
      cases result with
      | error e => cases hBuilt
      | ok other =>
          cases hBuilt
          rfl

end Grammar

end Marginalia

import Marginalia.Proofs.Grammar.Correspondence
import Marginalia.Proofs.Grammar.Numbering

/-
  This file proves that a disabled declaration can be muted: if
  it is replaced by one that is no rule at all, the rules of the
  two grammars correspond.

  A muted declaration stays in its list, so all others are at the
  sites where they were, and rules are partners if they are at
  one site.  What was muted has no partner.

  Key definitions include:
    * `Declaration.Disabled`
    * `Declaration.Mutes`, `Declaration.MutesInside`
    * `GrammarDeclaration.Mutes`
    * `GrammarDeclaration.Kept`, `GrammarDeclaration.Lost`
  The main statements are:
    * `GrammarDeclaration.matched_sitesBelow`
    * `GrammarDeclaration.paired_of_mutes`
-/

namespace Marginalia

------------------------------------------------------------
-- Disabled Declarations
------------------------------------------------------------

namespace Declaration

/- The pattern that a rule of a kind begins with. -/
def Kind.source? : Kind → Option Bytes
| .single source _ => some source
| .region openSource _ _ _ _ => some openSource
| .container => none

/- The pattern that a rule of a kind begins with is rejected. -/
def Kind.Rejected
    (engine : Engine)
    (kind : Kind) : Prop :=
  ∃ source, kind.source? = some source ∧ engine.compile? source = none

/-
  A declaration that is disabled where it is listed: it is no
  rule, has no end, refers to nothing, or begins with a pattern
  that is rejected.
-/
inductive Disabled
    (engine : Engine)
    (d : GrammarDeclaration) : Declaration → Prop where
| invalid : Disabled engine d .invalid
| unnumbered : Disabled engine d .unnumbered
| endless
    (source : Bytes) :
    Disabled engine d (.endless source)
| unresolved
    {r : Reference}
    (hTarget : d.referenceSite? r = none) :
    Disabled engine d (.reference r)
| rejected
    {header : Header}
    {children : List Declaration}
    (hRejected : header.kind.Rejected engine) :
    Disabled engine d (.rule header children)

/-
  A declaration with some disabled ones muted: each of them is
  replaced by what is no rule.
-/
inductive Mutes
    (engine : Engine)
    (d : GrammarDeclaration) :
    Declaration → Declaration → Prop where
| same
    (c : Declaration) :
    Mutes engine d c c
| muted
    {c : Declaration}
    (hDisabled : Disabled engine d c) :
    Mutes engine d c .invalid
| inside
    (header : Header)
    {cs cs' : List Declaration}
    (hList : List.Forall₂ (Mutes engine d) cs cs') :
    Mutes engine d (.rule header cs) (.rule header cs')

/- Declarations are muted inside a declaration, but not itself. -/
structure MutesInside
    (engine : Engine)
    (d : GrammarDeclaration)
    (c c' : Declaration) : Prop where
  mutes : Mutes engine d c c'
  header_eq : c.header = c'.header
  children : List.Forall₂ (Mutes engine d) c.children c'.children

variable {engine : Engine}
variable {d : GrammarDeclaration}
variable {c c' : Declaration}

/- Nothing need be muted. -/
theorem mutesInside_refl
    (c : Declaration) :
    MutesInside engine d c c where
  mutes := Mutes.same c
  header_eq := rfl
  children := List.forall₂_same.mpr (fun c _ => Mutes.same c)

/- Declarations are muted in the list of a rule. -/
theorem mutesInside_rule
    {cs cs' : List Declaration}
    (header : Header)
    (hList : List.Forall₂ (Mutes engine d) cs cs') :
    MutesInside engine d (.rule header cs) (.rule header cs') where
  mutes := Mutes.inside header hList
  header_eq := rfl
  children := hList

end Declaration

namespace GrammarDeclaration

open Declaration

/- Two entries have one name and declarations that are related. -/
def RelatedEntries
    (related : Declaration → Declaration → Prop)
    (e e' : Bytes × Declaration) : Prop :=
  e.1 = e'.1 ∧ related e.2 e'.2

/- A grammar with declarations muted in some of its lists. -/
structure Mutes
    (engine : Engine)
    (d d' : GrammarDeclaration) : Prop where
  scopeName_eq : d.scopeName = d'.scopeName
  patterns :
    List.Forall₂ (Declaration.Mutes engine d) d.patterns d'.patterns
  repository :
    List.Forall₂ (RelatedEntries (MutesInside engine d)) d.repository
      d'.repository

/- Both grammars have a rule at a site, and it was not muted. -/
def Kept
    (engine : Engine)
    (d d' : GrammarDeclaration)
    (site : Site) : Prop :=
  ∃ c c',
    d.written? site = some c ∧ d'.written? site = some c' ∧
      MutesInside engine d c c'

/- The rule at a site begins with a rejected pattern and was muted. -/
def Lost
    (engine : Engine)
    (d d' : GrammarDeclaration)
    (site : Site) : Prop :=
  ∃ header children,
    d.written? site = some (.rule header children) ∧
      header.kind.Rejected engine ∧ d'.written? site = some .invalid

variable {engine : Engine}
variable {d d' : GrammarDeclaration}

/- What is kept is not lost. -/
theorem not_kept_of_lost
    {site : Site}
    (hLost : Lost engine d d' site) :
    ¬Kept engine d d' site := by
  rintro ⟨c, c', hWritten, hWritten', hInside⟩
  rcases hLost with ⟨header, children, hRule, hRejected, hMuted⟩
  cases hWritten.symm.trans hRule
  cases hWritten'.symm.trans hMuted
  rcases hRejected with ⟨source, hSource, _⟩
  have hContainer : header.kind = .container :=
    congrArg Header.kind hInside.header_eq
  rw [hContainer] at hSource
  cases hSource

------------------------------------------------------------
-- Sites
------------------------------------------------------------

/- Of two lists of entries, those found for a name are related. -/
theorem rel_find?_of_forall₂
    {related : Declaration → Declaration → Prop}
    {es es' : List (Bytes × Declaration)}
    (hEntries : List.Forall₂ (RelatedEntries related) es es')
    (name : Bytes) :
    Option.Rel related
      ((es.find? (fun e => e.1 == name)).map Prod.snd)
      ((es'.find? (fun e => e.1 == name)).map Prod.snd) := by
  induction hEntries with
  | nil => exact Option.Rel.none
  | cons hHead _ ih =>
      rw [List.find?_cons, List.find?_cons, hHead.1]
      split
      · exact Option.Rel.some hHead.2
      · exact ih

/- The entries of both grammars have the same names. -/
theorem rel_declared
    (hMutes : Mutes engine d d')
    (name : Bytes) :
    Option.Rel (MutesInside engine d) (d.entry? name) (d'.entry? name) :=
  rel_find?_of_forall₂ hMutes.repository name

/- A reference leads to the same site in both grammars. -/
theorem referenceSite?_eq
    (hMutes : Mutes engine d d')
    (r : Reference) :
    d.referenceSite? r = d'.referenceSite? r := by
  cases r with
  | whole => rfl
  | foreign name => rfl
  | entry name =>
      have hEntry := rel_declared hMutes name
      simp only [referenceSite?, entrySite?]
      generalize d.entry? name = c? at hEntry ⊢
      generalize d'.entry? name = c'? at hEntry ⊢
      cases hEntry <;> rfl

/- The roots of both grammars. -/
theorem kept_root
    (hMutes : Mutes engine d d') :
    Kept engine d d' .root := by
  refine ⟨_, _, rfl, rfl, ?_⟩
  unfold rootDeclaration
  rw [hMutes.scopeName_eq]
  exact mutesInside_rule _ hMutes.patterns

/- What a reference leads to is kept. -/
theorem kept_of_referenceSite?
    {r : Reference}
    {site : Site}
    (hMutes : Mutes engine d d')
    (hTarget : d.referenceSite? r = some site) :
    Kept engine d d' site := by
  cases r with
  | whole =>
      cases hTarget
      exact kept_root hMutes
  | foreign name => cases hTarget
  | entry name =>
      rcases Option.map_eq_some_iff.mp hTarget with ⟨c, hEntry, rfl⟩
      have hRel := rel_declared hMutes name
      rw [hEntry] at hRel
      generalize hOther : d'.entry? name = c'? at hRel
      cases hRel with
      | some hInside => exact ⟨c, _, hEntry, hOther, hInside⟩

/-
  What the declarations listed at a kept site stand for is
  matched: a muted one stands for nothing any more.
-/
theorem matched_sitesFrom
    {parent : Site}
    {outer outer' : Declaration}
    (hMutes : Mutes engine d d')
    (hOuter : d.written? parent = some outer)
    (hOuter' : d'.written? parent = some outer')
    {cs cs' : List Declaration}
    (hLists : List.Forall₂ (Declaration.Mutes engine d) cs cs') :
    ∀ {index : Nat},
      outer.children.drop index = cs →
        outer'.children.drop index = cs' →
          RuleTable.Matched (fun s s' => s = s' ∧ Kept engine d d' s)
            (Lost engine d d') (d.sitesFrom parent index cs)
            (d'.sitesFrom parent index cs') := by
  induction hLists with
  | nil =>
      intro index _ _
      exact RuleTable.Matched.nil
  | @cons c c' cs cs' hHead hTail ih =>
      intro index hList hList'
      have hWritten := written?_child hOuter hList
      have hWritten' := written?_child hOuter' hList'
      have hRest :=
        @ih (index + 1)
          (by rw [← List.drop_drop, hList]; rfl)
          (by rw [← List.drop_drop, hList']; rfl)
      apply RuleTable.matched_append _ hRest
      cases hHead with
      | same =>
          cases c with
          | reference r =>
              simp only [standsFor?]
              rw [← referenceSite?_eq hMutes]
              cases hTarget : d.referenceSite? r with
              | none => exact RuleTable.Matched.nil
              | some site =>
                  exact
                    RuleTable.Matched.pair
                      ⟨rfl, kept_of_referenceSite? hMutes hTarget⟩
                      RuleTable.Matched.nil
          | rule header children =>
              have hKept : Kept engine d d' (.child parent index) :=
                ⟨_, _, hWritten, hWritten', mutesInside_refl _⟩
              exact
                RuleTable.Matched.pair ⟨rfl, hKept⟩
                  RuleTable.Matched.nil
          | endless source => exact RuleTable.Matched.nil
          | unnumbered => exact RuleTable.Matched.nil
          | invalid => exact RuleTable.Matched.nil
      | muted hDisabled =>
          cases hDisabled with
          | invalid => exact RuleTable.Matched.nil
          | unnumbered => exact RuleTable.Matched.nil
          | endless source => exact RuleTable.Matched.nil
          | unresolved hTarget =>
              simp only [standsFor?, hTarget]
              exact RuleTable.Matched.nil
          | rejected hRejected =>
              exact
                RuleTable.Matched.pass
                  ⟨_, _, hWritten, hRejected, hWritten'⟩
                  RuleTable.Matched.nil
      | inside header hInner =>
          have hKept : Kept engine d d' (.child parent index) :=
            ⟨_, _, hWritten, hWritten', mutesInside_rule header hInner⟩
          exact
            RuleTable.Matched.pair ⟨rfl, hKept⟩ RuleTable.Matched.nil

/- What is listed at a kept site is matched. -/
theorem matched_sitesBelow
    {site : Site}
    (hMutes : Mutes engine d d')
    (hKept : Kept engine d d' site) :
    RuleTable.Matched (fun s s' => s = s' ∧ Kept engine d d' s)
      (Lost engine d d')
      (d.sitesBelow site) (d'.sitesBelow site) := by
  rcases hKept with ⟨c, c', hWritten, hWritten', hInside⟩
  unfold sitesBelow
  rw [hWritten, hWritten']
  exact
    matched_sitesFrom hMutes hWritten hWritten' hInside.children rfl rfl

------------------------------------------------------------
-- Tables
------------------------------------------------------------

open RuleTable (ruleAt LaidOut Paired enabled)

section Tables

variable {sites sites' : List Site}
variable {rules rules' : Array Rule}

/- Two numbers are those of one kept site. -/
def Partner
    (engine : Engine)
    (d d' : GrammarDeclaration)
    (sites sites' : List Site)
    (a b : RuleId) : Prop :=
  ∃ site,
    Site.IsNumbered sites a site ∧ Site.IsNumbered sites' b site ∧
      Kept engine d d' site

/- A number is that of a lost site. -/
def Idle
    (engine : Engine)
    (d d' : GrammarDeclaration)
    (sites : List Site)
    (a : RuleId) : Prop :=
  ∃ site, Site.IsNumbered sites a site ∧ Lost engine d d' site

/- The rule of a number whose site is known. -/
theorem exists_ruleAt_eq
    {id : RuleId}
    {site : Site}
    {c : Declaration}
    (hLaid : LaidOut engine d sites rules)
    (hNumbered : Site.IsNumbered sites id site)
    (hWritten : d.written? site = some c) :
    ∃ patterns,
      ruleAt rules id = c.header.rule (c.header.kind.body engine)
          patterns ∧
        List.Forall₂ (Site.IsNumbered sites) patterns
          (d.sitesBelow site) := by
  rcases hLaid.settled hNumbered with
    ⟨other, patterns, hOther, hRule, hBelow⟩
  cases hOther.symm.trans hWritten
  refine ⟨patterns, ?_, hBelow⟩
  rw [ruleAt, Array.getD_eq_getD_getElem?, hRule]
  rfl

/- A number that a site has lies in the table. -/
theorem lt_size_of_isNumbered
    {id : Nat}
    {site : Site}
    (hLaid : LaidOut engine d sites rules)
    (hNumbered : Site.IsNumbered sites id site) :
    id < rules.size := by
  rw [← hLaid.length_eq]
  exact (List.getElem?_eq_some_iff.mp hNumbered).1

/- A site has one number at most. -/
theorem eq_of_isNumbered
    {a b : Nat}
    {site : Site}
    (hLaid : LaidOut engine d sites rules)
    (hFirst : Site.IsNumbered sites a site)
    (hSecond : Site.IsNumbered sites b site) :
    a = b := by
  have hLt := (List.getElem?_eq_some_iff.mp hFirst).1
  exact
    (List.getElem?_inj hLt hLaid.nodup).mp (hFirst.trans hSecond.symm)

/- The rules of a grammar and of one with some of them muted are paired. -/
theorem paired_of_mutes
    (hMutes : Mutes engine d d')
    (hLaid : LaidOut engine d sites rules)
    (hLaid' : LaidOut engine d' sites' rules') :
    Paired (Partner engine d d' sites sites') (Idle engine d d' sites) rules
      rules' where
  lt_left := by
    rintro a b ⟨site, hFirst, _, _⟩
    exact lt_size_of_isNumbered hLaid hFirst
  lt_right := by
    rintro a b ⟨site, _, hSecond, _⟩
    exact lt_size_of_isNumbered hLaid' hSecond
  eq_iff := by
    rintro a b c e ⟨site, hFirst, hSecond, _⟩
      ⟨other, hOther, hOther', _⟩
    constructor
    · rintro rfl
      cases hFirst.symm.trans hOther
      exact eq_of_isNumbered hLaid' hOther' hSecond
    · rintro rfl
      cases hSecond.symm.trans hOther'
      exact eq_of_isNumbered hLaid hOther hFirst
  name_eq := by
    rintro a b ⟨site, hFirst, hSecond, c, c', hWritten, hWritten', hIn⟩
    rcases exists_ruleAt_eq hLaid hFirst hWritten with ⟨_, hRule, _⟩
    rcases exists_ruleAt_eq hLaid' hSecond hWritten' with ⟨_, hRule', _⟩
    rw [hRule, hRule', hIn.header_eq]
    rfl
  contentName_eq := by
    rintro a b ⟨site, hFirst, hSecond, c, c', hWritten, hWritten', hIn⟩
    rcases exists_ruleAt_eq hLaid hFirst hWritten with ⟨_, hRule, _⟩
    rcases exists_ruleAt_eq hLaid' hSecond hWritten' with ⟨_, hRule', _⟩
    rw [hRule, hRule', hIn.header_eq]
    rfl
  body_eq := by
    rintro a b ⟨site, hFirst, hSecond, c, c', hWritten, hWritten', hIn⟩
    rcases exists_ruleAt_eq hLaid hFirst hWritten with ⟨_, hRule, _⟩
    rcases exists_ruleAt_eq hLaid' hSecond hWritten' with ⟨_, hRule', _⟩
    rw [hRule, hRule', hIn.header_eq]
    rfl
  patterns := by
    rintro a b ⟨site, hFirst, hSecond, hKept⟩
    have hMatched := matched_sitesBelow hMutes hKept
    rcases hKept with ⟨c, c', hWritten, hWritten', _⟩
    rcases exists_ruleAt_eq hLaid hFirst hWritten with
      ⟨patterns, hRule, hBelow⟩
    rcases exists_ruleAt_eq hLaid' hSecond hWritten' with
      ⟨patterns', hRule', hBelow'⟩
    rw [hRule, hRule']
    apply RuleTable.matched_of_forall₂ hMatched _ _ hBelow hBelow'
    · rintro s s' a' b' ⟨rfl, hHere⟩ hItem hItem'
      exact ⟨s, hItem, hItem', hHere⟩
    · intro s a' hLost hItem
      exact ⟨s, hItem, hLost⟩
  idle_alone := by
    rintro a b ⟨site, hNumbered, hLost⟩ ⟨other, hOther, _, hKept⟩
    cases hNumbered.symm.trans hOther
    exact not_kept_of_lost hLost hKept
  idle_rejected := by
    rintro a ⟨site, hNumbered, header, children, hWritten, hRejected, _⟩
    rcases exists_ruleAt_eq hLaid hNumbered hWritten with ⟨_, hRule, _⟩
    rcases hRejected with ⟨source, hSource, hCompile⟩
    rw [enabled, hRule]
    change
      Rule.isContainer (header.rule (header.kind.body engine) _) = false ∧
        (Rule.pattern?
          (header.rule (header.kind.body engine) _)).isSome = false
    cases hKind : header.kind with
    | single other captures =>
        rw [hKind] at hSource
        cases hSource
        simp [Header.rule, Kind.body, Rule.isContainer, Rule.pattern?,
          hCompile]
    | region other captures endSource endCaptures endLast =>
        rw [hKind] at hSource
        cases hSource
        simp [Header.rule, Kind.body, Rule.isContainer, Rule.pattern?,
          hCompile]
    | container =>
        rw [hKind] at hSource
        cases hSource

end Tables

end GrammarDeclaration

end Marginalia

import Marginalia.Grammar.Table

/-
  This file says where the rules of a grammar are written.

  The numbers of rules depend on the order in which entries are
  first referred to.  What does not depend on it is where a rule
  is written: at the root, as an entry, or at some place in the
  list of another rule.  Such a place is a site.  The declaration
  at a site says all about the rule but the numbers of the rules
  below it, and of these it says at which sites they are.

  Key definitions include:
    * `Site`, `Site.Under`
    * `Declaration.header`, `Declaration.children`
    * `GrammarDeclaration.written?`
    * `GrammarDeclaration.sitesBelow`
-/

namespace Marginalia

------------------------------------------------------------
-- Sites
------------------------------------------------------------

/-
  Where a rule is written: the root, a named entry, or a place in
  the list of another rule.
-/
inductive Site where
| root
| entry (name : Bytes)
| child (parent : Site) (index : Nat)
deriving DecidableEq, Repr

namespace Site

/- The entry that a site lies in; the root lies in none. -/
def entryName? : Site → Option Bytes
| root => none
| entry name => some name
| child parent _ => parent.entryName?

/- The number of lists around a site. -/
def depth : Site → Nat
| root => 0
| entry _ => 0
| child parent _ => parent.depth + 1

/- A site is `outer` or lies in lists below it. -/
inductive Under (outer : Site) : Site → Prop where
| self : Under outer outer
| child
    {parent : Site}
    (hParent : Under outer parent)
    (index : Nat) :
    Under outer (child parent index)

/- What is below a site lies in the same entry. -/
theorem entryName?_of_under
    {outer site : Site}
    (hUnder : Under outer site) :
    site.entryName? = outer.entryName? := by
  induction hUnder with
  | self => rfl
  | child _ _ ih => exact ih

/- What is below a site lies deeper. -/
theorem depth_le_of_under
    {outer site : Site}
    (hUnder : Under outer site) :
    outer.depth ≤ site.depth := by
  induction hUnder with
  | self => exact Nat.le_refl _
  | child _ _ ih => exact Nat.le_succ_of_le ih

/- A site is not below its own children. -/
theorem not_under_child
    (site : Site)
    (index : Nat) :
    ¬Under (child site index) site := by
  intro hUnder
  have hDepth := depth_le_of_under hUnder
  simp only [depth] at hDepth
  omega

/- What is below a child is below the parent. -/
theorem under_of_under_child
    {parent site : Site}
    {index : Nat}
    (hUnder : Under (child parent index) site) :
    Under parent site := by
  induction hUnder with
  | self => exact Under.child Under.self index
  | child _ index ih => exact Under.child ih index

/- A site is below one child of another site at most. -/
theorem index_eq_of_under
    {parent site : Site}
    {i j : Nat}
    (hFirst : Under (child parent i) site)
    (hSecond : Under (child parent j) site) :
    i = j := by
  induction hFirst with
  | self =>
      cases hSecond with
      | self => rfl
      | child hParent => exact absurd hParent (not_under_child _ _)
  | child hInner _ ih =>
      cases hSecond with
      | self => exact absurd hInner (not_under_child _ _)
      | child hParent => exact ih hParent

end Site

------------------------------------------------------------
-- What Is Written at a Site
------------------------------------------------------------

namespace Declaration

/-
  The header of the rule that a declaration makes.  What is no
  rule makes a hollow container where a rule is needed.
-/
def header : Declaration → Header
| .rule header _ => header
| _ => { name := [], contentName := [], kind := .container }

/- What a declaration lists; a reference lists itself. -/
def children : Declaration → List Declaration
| .rule _ children => children
| .reference r => [.reference r]
| _ => []

/- What a rule of a kind does once an engine has compiled it. -/
def Kind.body (engine : Engine) : Kind → Rule.Body
| .single source captures =>
    .single (engine.compile? source) captures
| .region openSource captures endSource endCaptures endLast =>
    .region (engine.compile? openSource) captures endSource
      (if BackReference.occurs endSource then .referring
        else .fixed (engine.compile? endSource))
      endCaptures endLast
| .container => .container

end Declaration

namespace GrammarDeclaration

/- The root as a declaration. -/
def rootDeclaration (d : GrammarDeclaration) : Declaration :=
  .rule { name := d.scopeName, contentName := [], kind := .container }
    d.patterns

/- The declaration at a site. -/
def written? (d : GrammarDeclaration) : Site → Option Declaration
| .root => some d.rootDeclaration
| .entry name => d.entry? name
| .child parent index =>
    (d.written? parent).bind (fun outer => outer.children[index]?)

/- The site of a named entry, if there is one. -/
def entrySite? (d : GrammarDeclaration) (name : Bytes) : Option Site :=
  (d.entry? name).map (fun _ => .entry name)

/- The site that a reference leads to. -/
def referenceSite? (d : GrammarDeclaration) : Reference → Option Site
| .whole => some .root
| .entry name => d.entrySite? name
| .foreign _ => none

/- The site that a declaration at a place in a list stands for. -/
def standsFor?
    (d : GrammarDeclaration)
    (parent : Site)
    (index : Nat) : Declaration → Option Site
| .reference r => d.referenceSite? r
| .rule _ _ => some (.child parent index)
| _ => none

/- The sites that some declarations stand for, from a place on. -/
def sitesFrom
    (d : GrammarDeclaration)
    (parent : Site) : Nat → List Declaration → List Site
| _, [] => []
| index, c :: cs =>
    (d.standsFor? parent index c).toList ++
      d.sitesFrom parent (index + 1) cs

/- The sites that the declarations listed at a site stand for. -/
def sitesBelow (d : GrammarDeclaration) (site : Site) : List Site :=
  d.sitesFrom site 0
    (((d.written? site).map Declaration.children).getD [])

/- A child is written where its parent lists it. -/
theorem written?_child
    {d : GrammarDeclaration}
    {parent : Site}
    {outer c : Declaration}
    {cs : List Declaration}
    {index : Nat}
    (hOuter : d.written? parent = some outer)
    (hList : outer.children.drop index = c :: cs) :
    d.written? (.child parent index) = some c := by
  have hItem : outer.children[index]? = some c := by
    have hZero : (outer.children.drop index)[0]? = some c := by
      rw [hList]
      rfl
    simpa using hZero
  simp [written?, hOuter, hItem]

end GrammarDeclaration

end Marginalia

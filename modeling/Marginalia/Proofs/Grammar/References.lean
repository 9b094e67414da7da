import Marginalia.Proofs.Grammar.Building
import Marginalia.Proofs.Grammar.Evaluation
import Marginalia.Proofs.Grammar.Muting

/-
  This file proves that the rules of a grammar that is built refer
  to rules of the grammar only, however the references lead in
  circles.

  All rules are laid out at sites, and an entry is one site.  So
  whatever refers to the entry, and be it the entry itself, lists
  the one number of that site.  What may match inside a rule is
  found by a walk over the table that passes containers on, so a
  container is never found.

  Key definitions include:
    * `Json.entry?`, `Json.Refers`
    * `NumberedGrammar.InOrder`
    * `NumberedGrammar.Shares`
  The main statements are:
    * `RuleTable.exists_of_mem_candidates`
    * `RuleTable.LaidOut.getElem?_patterns`
    * `RuleTable.LaidOut.exists_isNumbered_entry`
    * `NumberedGrammar.ofJson?_inOrder`
-/

namespace Marginalia

------------------------------------------------------------
-- Candidates
------------------------------------------------------------

namespace RuleTable

variable {rules : Array Rule}

/- A candidate is a rule of the table, and no container. -/
theorem exists_of_mem_candidates
    {rule : Rule}
    {id : Nat}
    (hCandidate : id ∈ candidates rules rule) :
    ∃ other, rules[id]? = some other ∧ other.isContainer = false := by
  rcases of_mem_collect _ _ hCandidate with ⟨hUnseen, hKind⟩
  have hLt : id < rules.size := List.mem_range.mp hUnseen
  refine ⟨rules[id], Array.getElem?_eq_getElem hLt, ?_⟩
  simpa [ruleAt, Array.getD_eq_getD_getElem?, hLt] using hKind

end RuleTable

------------------------------------------------------------
-- What Is Listed
------------------------------------------------------------

namespace GrammarDeclaration

variable (d : GrammarDeclaration)

/- The sites of two lists in a row. -/
theorem sitesFrom_append
    (parent : Site)
    (before after : List Declaration) :
    ∀ index : Nat,
      d.sitesFrom parent index (before ++ after) =
        d.sitesFrom parent index before ++
          d.sitesFrom parent (index + before.length) after := by
  induction before with
  | nil => exact fun _ => rfl
  | cons c before ih =>
      intro index
      rw [List.cons_append, sitesFrom, ih, sitesFrom,
        List.append_assoc, List.length_cons]
      congr 3
      omega

end GrammarDeclaration

namespace RuleTable

variable {engine : Engine}
variable {d : GrammarDeclaration}
variable {sites : List Site}
variable {rules : Array Rule}

/- A rule of the table is the one that some site asks for. -/
theorem LaidOut.exists_settled
    {id : Nat}
    {rule : Rule}
    (hLaid : LaidOut engine d sites rules)
    (hRule : rules[id]? = some rule) :
    ∃ (site : Site) (c : Declaration) (patterns : List RuleId),
      rule = c.header.rule (c.header.kind.body engine) patterns ∧
        List.Forall₂ (Site.IsNumbered sites) patterns
          (d.sitesBelow site) := by
  have hLt : id < sites.length := by
    rw [hLaid.length_eq]
    exact (Array.getElem?_eq_some_iff.mp hRule).1
  rcases hLaid.settled (List.getElem?_eq_getElem hLt) with
    ⟨c, patterns, _, hSome, hBelow⟩
  exact
    ⟨_, c, patterns, Option.some.inj (hRule.symm.trans hSome), hBelow⟩

/-
  What a rule lists stands in its patterns, behind what is listed
  before it and stands for a site.
-/
theorem LaidOut.getElem?_patterns
    {id : RuleId}
    {site below : Site}
    {outer c : Declaration}
    {before after : List Declaration}
    {rule : Rule}
    (hLaid : LaidOut engine d sites rules)
    (hNumbered : Site.IsNumbered sites id site)
    (hWritten : d.written? site = some outer)
    (hChildren : outer.children = before ++ c :: after)
    (hStands : d.standsFor? site before.length c = some below)
    (hRule : rules[id]? = some rule) :
    ∃ target,
      rule.patterns[(d.sitesFrom site 0 before).length]? =
          some target ∧
        Site.IsNumbered sites target below := by
  rcases hLaid.settled hNumbered with
    ⟨other, patterns, hOther, hSome, hBelow⟩
  cases hOther.symm.trans hWritten
  cases hRule.symm.trans hSome
  have hSites :
      d.sitesBelow site =
        d.sitesFrom site 0 before ++
          below :: d.sitesFrom site (before.length + 1) after := by
    rw [GrammarDeclaration.sitesBelow, hWritten, Option.map_some,
      Option.getD_some, hChildren, GrammarDeclaration.sitesFrom_append,
      Nat.zero_add, GrammarDeclaration.sitesFrom, hStands]
    rfl
  rw [hSites] at hBelow
  have hRest := List.forall₂_drop_append _ _ _ hBelow
  rcases List.forall₂_cons_right_iff.mp hRest with
    ⟨target, rest, hTarget, _, hDrop⟩
  refine ⟨target, ?_, hTarget⟩
  change patterns[(d.sitesFrom site 0 before).length]? = some target
  rw [← List.head?_drop, hDrop]
  rfl

/- A site that a listed declaration stands for has a number. -/
theorem LaidOut.exists_isNumbered_of_mem
    {id : RuleId}
    {site : Site}
    {outer c : Declaration}
    (hLaid : LaidOut engine d sites rules)
    (hNumbered : Site.IsNumbered sites id site)
    (hWritten : d.written? site = some outer)
    (hMember : c ∈ outer.children) :
    ∃ index,
      outer.children[index]? = some c ∧
        ∀ below, d.standsFor? site index c = some below →
          ∃ target, Site.IsNumbered sites target below := by
  rcases List.append_of_mem hMember with ⟨before, after, hChildren⟩
  refine ⟨before.length, by simp [hChildren], ?_⟩
  intro below hStands
  rcases hLaid.settled hNumbered with ⟨_, _, _, hRule, _⟩
  rcases
      hLaid.getElem?_patterns hNumbered hWritten hChildren hStands
        hRule with
    ⟨target, _, hTarget⟩
  exact ⟨target, hTarget⟩

/-
  What compiling comes to is listed in a rule of the table, or it
  is the declaration of an entry that is a rule of the table.
-/
def Placed
    (d : GrammarDeclaration)
    (sites : List Site)
    (c : Declaration) : Prop :=
  ∃ id site outer,
    Site.IsNumbered sites id site ∧ d.written? site = some outer ∧
      (c ∈ outer.children ∨ c = outer)

/- A reference to an entry gives the entry a number. -/
theorem LaidOut.exists_isNumbered_entry
    {name : Bytes}
    (hLaid : LaidOut engine d sites rules)
    (hPlaced : Placed d sites (.reference (.entry name)))
    (hEntry : (d.entry? name).isSome) :
    ∃ target, Site.IsNumbered sites target (.entry name) := by
  rcases hPlaced with ⟨id, site, outer, hNumbered, hWritten, hHere⟩
  -- An entry that is a reference lists that reference.
  have hMember : .reference (.entry name) ∈ outer.children := by
    rcases hHere with hListed | rfl
    · exact hListed
    · exact List.mem_singleton_self _
  rcases hLaid.exists_isNumbered_of_mem hNumbered hWritten hMember with
    ⟨_, _, hStands⟩
  apply hStands
  rcases Option.isSome_iff_exists.mp hEntry with ⟨c, hSome⟩
  simp [GrammarDeclaration.standsFor?,
    GrammarDeclaration.referenceSite?, GrammarDeclaration.entrySite?,
    hSome]

/- All that compiling comes to has its place in the table. -/
theorem LaidOut.placed_of_reaches
    {c : Declaration}
    (hLaid : LaidOut engine d sites rules)
    (hReached : d.Reaches c) :
    Placed d sites c := by
  induction hReached with
  | root hMember =>
      exact
        ⟨Grammar.rootId, .root, d.rootDeclaration, hLaid.root, rfl,
          Or.inl hMember⟩
  | @child header children c hRule hMember ih =>
      rcases ih with ⟨id, site, outer, hNumbered, hWritten, hHere⟩
      rcases hHere with hListed | rfl
      · rcases
            hLaid.exists_isNumbered_of_mem hNumbered hWritten
              hListed with
          ⟨index, hIndex, hStands⟩
        rcases hStands _ rfl with ⟨target, hTarget⟩
        refine
          ⟨target, .child site index, .rule header children, hTarget,
            ?_, Or.inl hMember⟩
        simp [GrammarDeclaration.written?, hWritten, hIndex]
      · exact ⟨id, site, _, hNumbered, hWritten, Or.inl hMember⟩
  | entry hReference hEntry ih =>
      rcases
          hLaid.exists_isNumbered_entry ih
            (Option.isSome_of_eq_some hEntry) with
        ⟨target, hTarget⟩
      exact ⟨target, _, _, hTarget, hEntry, Or.inr rfl⟩

end RuleTable

------------------------------------------------------------
-- Grammars
------------------------------------------------------------

namespace Json

/- The entry of a name in the repository of a grammar. -/
def entry? (doc : Json) (name : Bytes) : Option Json :=
  match doc.get? "repository" with
  | some (.object entries) => Members.find? name entries
  | _ => none

/- A rule that compiling comes to is a reference to an entry. -/
def Refers (doc : Json) (name : Bytes) : Prop :=
  ∃ rule,
    doc.ReachesRule rule ∧
      rule.text? "include" = some (Ascii.hash :: name)

end Json

namespace GrammarDeclaration

variable {d : GrammarDeclaration}
variable {doc : Json}
variable {name : Bytes}

/- The entries that are there are those of the value. -/
theorem isSome_entry?
    (hRead : ofJson? doc = some d)
    (hEntry : (doc.entry? name).isSome) :
    (d.entry? name).isSome := by
  rcases Option.isSome_iff_exists.mp hEntry with ⟨value, hSome⟩
  unfold Json.entry? at hSome
  split at hSome
  · next entries hRepository =>
      exact
        Option.isSome_of_eq_some
          ((entry?_eq_some_iff hRead).mpr
            ⟨entries, value, hRepository, hSome, rfl⟩)
  · cases hSome

/- References that compiling comes to are read as such. -/
theorem reaches_of_refers
    (hRead : ofJson? doc = some d)
    (hRefers : doc.Refers name) :
    d.Reaches (.reference (.entry name)) := by
  rcases hRefers with ⟨rule, hReached, hInclude⟩
  exact
    (reaches_iff hRead).mpr
      ⟨rule, hReached, Declaration.ofJson_eq_entry_iff.mpr hInclude⟩

end GrammarDeclaration

namespace NumberedGrammar

/- The grammar without the numbers that its rules carry. -/
def plain (grammar : NumberedGrammar) : Grammar :=
  ⟨grammar.engine, grammar.scopeName,
    grammar.rules.map NumberedRule.toRule⟩

/- The rules of a grammar before their candidates were found. -/
def table (grammar : NumberedGrammar) : Array Rule :=
  grammar.rules.map (fun rule => { rule.toRule with candidates := [] })

/-
  The numbers in a grammar are in order: a rule carries the number
  of its place, what it lists are rules of the grammar, and what
  may match inside it are rules of the grammar that match
  something themselves.
-/
structure InOrder (grammar : NumberedGrammar) : Prop where
  id_eq :
    ∀ {id : Nat} {rule : NumberedRule},
      grammar.rules[id]? = some rule → rule.id = id
  patterns_lt :
    ∀ rule ∈ grammar.rules, ∀ id ∈ rule.patterns,
      id < grammar.rules.size
  candidates :
    ∀ rule ∈ grammar.rules, ∀ id ∈ rule.candidates,
      ∃ candidate,
        grammar.rules[id]? = some candidate ∧
          candidate.isContainer = false

/-
  All references to an entry share one rule: no other number is
  that of the entry, and wherever a rule lists a reference to the
  entry, that number stands in its patterns, behind the numbers of
  what is listed before.
-/
structure Shares
    (grammar : NumberedGrammar)
    (d : GrammarDeclaration)
    (sites : List Site)
    (name : Bytes)
    (target : RuleId) : Prop where
  isNumbered_iff :
    ∀ id : RuleId,
      Site.IsNumbered sites id (.entry name) ↔ id = target
  getElem?_patterns :
    ∀ {id : RuleId} {site : Site} {outer : Declaration}
      {before after : List Declaration} {rule : NumberedRule},
      Site.IsNumbered sites id site →
        d.written? site = some outer →
          outer.children =
              before ++ .reference (.entry name) :: after →
            grammar.rules[id]? = some rule →
              rule.patterns[(d.sitesFrom site 0 before).length]? =
                some target

section Numbered

variable {d : GrammarDeclaration}
variable {sites : List Site}
variable {rules : Array Rule}
variable {engine : BoundedEngine}
variable {scopeName : Bytes}

/- The rule of a number, with its candidates. -/
theorem getElem?_numbered
    {id : Nat}
    {rule : NumberedRule} :
    (Grammar.numbered
          ⟨engine, scopeName, RuleTable.flatten rules⟩).rules[id]? =
        some rule ↔
      ∃ bare,
        rules[id]? = some bare ∧
          rule =
            { bare with
              candidates := RuleTable.candidates rules bare
              id := id } := by
  have hRules :
      (Grammar.numbered
            ⟨engine, scopeName, RuleTable.flatten rules⟩).rules[id]? =
        rules[id]?.map (fun bare =>
          { bare with
            candidates := RuleTable.candidates rules bare
            id := id }) := by
    simp [Grammar.numbered, RuleTable.numbered, RuleTable.flatten,
      Function.comp_def]
  rw [hRules, Option.map_eq_some_iff]
  simp only [eq_comm]

/- A grammar has as many rules as its table. -/
theorem size_numbered :
    (Grammar.numbered
        ⟨engine, scopeName, RuleTable.flatten rules⟩).rules.size =
      rules.size := by
  simp [Grammar.numbered, RuleTable.numbered, RuleTable.flatten]

theorem plain_numbered
    (grammar : Grammar) :
    grammar.numbered.plain = grammar := by
  unfold plain Grammar.numbered
  rw [RuleTable.map_toRule_numbered]

/- The rules are laid out without candidates. -/
theorem table_numbered
    (hLaid : RuleTable.LaidOut engine.toEngine d sites rules) :
    (Grammar.numbered ⟨engine, scopeName, RuleTable.flatten rules⟩).table =
      rules := by
  apply Array.ext_getElem?
  intro id
  cases hRule : rules[id]? with
  | none =>
      simpa [table, Grammar.numbered, RuleTable.numbered,
        RuleTable.flatten] using hRule
  | some bare =>
      rcases hLaid.exists_settled hRule with ⟨_, c, patterns, rfl, _⟩
      simp [table, Grammar.numbered, RuleTable.numbered,
        RuleTable.flatten, hRule, Declaration.Header.rule]

/- The numbers of the rules are those from zero on. -/
theorem InOrder.map_id_eq
    {grammar : NumberedGrammar}
    (hOrder : grammar.InOrder) :
    grammar.rules.toList.map NumberedRule.id =
      List.range grammar.rules.size := by
  apply List.ext_getElem
  · simp
  · intro id hLt _
    simpa using hOrder.id_eq (Array.getElem?_eq_getElem (by simpa using hLt))

/- A grammar whose rules are laid out is in order. -/
theorem inOrder_numbered
    (hLaid : RuleTable.LaidOut engine.toEngine d sites rules) :
    (Grammar.numbered
      ⟨engine, scopeName, RuleTable.flatten rules⟩).InOrder where
  id_eq := by
    intro id rule hRule
    rcases getElem?_numbered.mp hRule with ⟨bare, _, rfl⟩
    rfl
  patterns_lt := by
    intro rule hMember target hTarget
    rcases Array.mem_iff_getElem?.mp hMember with ⟨id, hRule⟩
    rcases getElem?_numbered.mp hRule with ⟨bare, hBare, rfl⟩
    rcases hLaid.exists_settled hBare with
      ⟨_, c, patterns, rfl, hBelow⟩
    rcases List.mem_iff_get.mp hTarget with ⟨place, rfl⟩
    have hNumbered := hBelow.get place.2 (hBelow.length_eq ▸ place.2)
    rw [size_numbered]
    exact GrammarDeclaration.lt_size_of_isNumbered hLaid hNumbered
  candidates := by
    intro rule hMember target hTarget
    rcases Array.mem_iff_getElem?.mp hMember with ⟨id, hRule⟩
    rcases getElem?_numbered.mp hRule with ⟨bare, _, rfl⟩
    rcases RuleTable.exists_of_mem_candidates hTarget with
      ⟨other, hOther, hKind⟩
    exact ⟨_, getElem?_numbered.mpr ⟨other, hOther, rfl⟩, hKind⟩

/- An entry that has a number shares it among its references. -/
theorem shares_numbered
    {name : Bytes}
    {target : RuleId}
    (hLaid : RuleTable.LaidOut engine.toEngine d sites rules)
    (hEntry : (d.entry? name).isSome)
    (hTarget : Site.IsNumbered sites target (.entry name)) :
    (Grammar.numbered ⟨engine, scopeName, RuleTable.flatten rules⟩).Shares d
      sites name target where
  isNumbered_iff := by
    intro id
    constructor
    · exact fun hOther =>
        GrammarDeclaration.eq_of_isNumbered hLaid hOther hTarget
    · rintro rfl
      exact hTarget
  getElem?_patterns := by
    intro id site outer before after rule hNumbered hWritten hChildren
      hRule
    rcases getElem?_numbered.mp hRule with ⟨bare, hBare, rfl⟩
    rcases Option.isSome_iff_exists.mp hEntry with ⟨c, hSome⟩
    have hStands :
        d.standsFor? site before.length (.reference (.entry name)) =
          some (.entry name) := by
      simp [GrammarDeclaration.standsFor?,
        GrammarDeclaration.referenceSite?,
        GrammarDeclaration.entrySite?, hSome]
    rcases
        hLaid.getElem?_patterns hNumbered hWritten hChildren hStands
          hBare with
      ⟨other, hPattern, hOther⟩
    rw [GrammarDeclaration.eq_of_isNumbered hLaid hTarget hOther]
    exact hPattern

end Numbered

/-
  Building the grammar of a JSON value ends, however its includes
  lead in circles, and it does not fail unless a group is numbered
  beyond 64 bits.  The numbers in a grammar that is built are in
  order, and all references to an entry of the repository share
  one of them.
-/
theorem ofJson?_inOrder
    (engine : BoundedEngine)
    (doc : Json) :
    ∃ result remarks,
      ofJson? engine doc = some (result, remarks) ∧
        Grammar.ofJson engine doc =
            (result.map (fun grammar? => grammar?.map plain),
              remarks) ∧
          (¬doc.Overflows → ∃ grammar?, result = .ok grammar?) ∧
            ∀ grammar : NumberedGrammar,
              result = .ok (some grammar) →
                grammar.InOrder ∧
                  ∃ d sites,
                    GrammarDeclaration.ofJson? doc = some d ∧
                      RuleTable.LaidOut engine.toEngine d sites
                          grammar.table ∧
                        ∀ name : Bytes,
                          (doc.entry? name).isSome →
                            doc.Refers name →
                              ∃ target < grammar.rules.size,
                                grammar.Shares d sites name target := by
  rcases hOutcome : Grammar.ofJson engine doc with ⟨result, remarks⟩
  have hBuilt := ofJson?_eq engine doc
  rw [hOutcome] at hBuilt
  refine ⟨_, _, hBuilt, ?_, ?_, ?_⟩
  · cases result with
    | error e => rfl
    | ok grammar? =>
        cases grammar? with
        | none => rfl
        | some grammar =>
            simp [Except.map, plain_numbered]
  · intro hOverflows
    cases result with
    | error e =>
        have hError : (Grammar.ofJson engine doc).1 = .error e := by
          rw [hOutcome]
        exact absurd (Grammar.ofJson_eq_error_iff.mp hError) hOverflows
    | ok grammar? => exact ⟨_, rfl⟩
  · intro grammar hGrammar
    rcases result with e | ⟨⟨⟩ | built⟩
    · cases hGrammar
    · cases hGrammar
    · cases hGrammar
      rcases Grammar.exists_ofDeclaration_eq hOutcome with
        ⟨d, hRead, hDeclared⟩
      rcases Grammar.exists_laidOut hDeclared with
        ⟨sites, rules, hLaid, rfl⟩
      refine ⟨inOrder_numbered hLaid, d, sites, hRead, ?_, ?_⟩
      · rw [table_numbered hLaid]
        exact hLaid
      · intro name hThere hRefers
        have hEntry := GrammarDeclaration.isSome_entry? hRead hThere
        have hReached :=
          GrammarDeclaration.reaches_of_refers hRead hRefers
        rcases
            hLaid.exists_isNumbered_entry
              (hLaid.placed_of_reaches hReached) hEntry with
          ⟨target, hTarget⟩
        refine ⟨target, ?_, shares_numbered hLaid hEntry hTarget⟩
        rw [size_numbered]
        exact GrammarDeclaration.lt_size_of_isNumbered hLaid hTarget

/-
  A grammar whose entries include each other and themselves, one
  of them being nothing but an include.
-/
theorem ofJson?_inOrder_loops :
    let refer := fun name : String =>
      Json.record [("include", .ofString name)]
    let doc : Json :=
      .record
        [("scopeName", .ofString "source.loops"),
          ("patterns", .array [refer "#a", refer "$self"]),
          ("repository",
            .record
              [("a", refer "#b"),
                ("b",
                  .record
                    [("patterns",
                      .array
                        [refer "#a", refer "#b",
                          .record [("match", .ofString "x")]])])])]
    ¬doc.Overflows ∧
      ∃ grammar d sites,
        ofJson? .standard doc = some (.ok (some grammar), []) ∧
          grammar.rules.toList.map NumberedRule.id = [0, 1, 2, 3] ∧
            grammar.rules.toList.map
                (fun r => (r.patterns, r.candidates)) =
              [([1, 0], [3]), ([2], [3]), ([1, 2, 3], [3]),
                ([], [])] ∧
              grammar.Shares d sites (utf8 "a") 1 := by
  intro refer doc
  have hComputed :
      (Grammar.ofJsonWithin? .standard 20 doc).map
          (fun g =>
            g.rules.toList.map (fun r => (r.patterns, r.candidates))) =
        some
          [([1, 0], [3]), ([2], [3]), ([1, 2, 3], [3]), ([], [])] := by
    decide +kernel
  rcases Option.map_eq_some_iff.mp hComputed with
    ⟨bare, hWithin, hRules⟩
  have hBare := Grammar.ofJson_of_ofJsonWithin? hWithin
  have hFits : ¬doc.Overflows := by
    intro hOverflows
    have hError :=
      (@Grammar.ofJson_eq_error_iff .standard doc
        .captureNumber).mpr hOverflows
    rw [hBare] at hError
    cases hError
  rcases ofJson?_inOrder .standard doc with
    ⟨result, remarks, hBuilt, hSame, hEnds, hAll⟩
  rcases hEnds hFits with ⟨⟨⟩ | grammar, rfl⟩
  · cases hBare.symm.trans hSame
  · have hPlain := hBare.symm.trans hSame
    simp only [Except.map, Option.map_some, Prod.mk.injEq,
      Except.ok.injEq, Option.some.injEq] at hPlain
    rcases hPlain with ⟨rfl, rfl⟩
    have hLists :
        grammar.rules.toList.map (fun r => (r.patterns, r.candidates)) =
          [([1, 0], [3]), ([2], [3]), ([1, 2, 3], [3]), ([], [])] := by
      rw [← hRules]
      simp [plain]
    have hSize : grammar.rules.size = 4 := by
      have hLength := congrArg List.length hLists
      simpa using hLength
    rcases hAll grammar rfl with
      ⟨hOrder, d, sites, hRead, hLaid, hShared⟩
    refine ⟨hFits, grammar, d, sites, hBuilt, ?_, hLists, ?_⟩
    · rw [hOrder.map_id_eq, hSize]
      rfl
    · rcases
          hShared (utf8 "a") (by decide)
            ⟨refer "#a", .root List.mem_cons_self, by decide⟩ with
        ⟨target, _, hShares⟩
      have hPatterns :
          d.patterns =
            [] ++ .reference (.entry (utf8 "a")) ::
              [.reference .whole] := by
        have hDeclared :
            (GrammarDeclaration.ofJson? doc).map
                GrammarDeclaration.patterns =
              some
                [.reference (.entry (utf8 "a")), .reference .whole] :=
          rfl
        rw [hRead] at hDeclared
        exact Option.some.inj hDeclared
      have hFirst :
          grammar.rules[0]?.map (fun r => (r.patterns, r.candidates)) =
            some ([1, 0], [3]) := by
        have hHead := congrArg (fun lists => lists[0]?) hLists
        simpa using hHead
      rcases Option.map_eq_some_iff.mp hFirst with
        ⟨root, hRoot, hRootLists⟩
      have hTarget :=
        hShares.getElem?_patterns hLaid.root rfl hPatterns hRoot
      have hRootPatterns : root.patterns = [1, 0] :=
        congrArg Prod.fst hRootLists
      rw [hRootPatterns] at hTarget
      cases hTarget
      exact hShares

end NumberedGrammar

end Marginalia

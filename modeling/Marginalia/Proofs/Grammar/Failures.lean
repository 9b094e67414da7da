import Marginalia.Proofs.Grammar.Numbering

/-
  This file proves which grammars cannot be built: just those in
  which compiling comes to a rule that numbers a group beyond 64
  bits.

  If it comes to none, no action on the way fails.  If a grammar
  is built, every entry that was referred to was compiled itself,
  and so was all that is written in it; so nothing that compiling
  comes to is such a rule.

  Key definitions include:
    * `GrammarDeclaration.Reaches`
    * `Draft.Succeeds`
    * `Declaration.Settled`, `Draft.Settles`
  The main statements are:
    * `GrammarDeclaration.succeeds_entry`
    * `GrammarDeclaration.settles_entry`
    * `Grammar.ofDeclaration_eq_error_iff`
-/

namespace Marginalia

------------------------------------------------------------
-- What Compiling Comes To
------------------------------------------------------------

/-
  The declarations that compiling a grammar comes to: those of
  the root, those listed in a rule, and the entries referred to.
-/
inductive GrammarDeclaration.Reaches (d : GrammarDeclaration) :
    Declaration → Prop where
| root
    {c : Declaration}
    (hMember : c ∈ d.patterns) :
    Reaches d c
| child
    {header : Declaration.Header}
    {children : List Declaration}
    {c : Declaration}
    (hRule : Reaches d (.rule header children))
    (hMember : c ∈ children) :
    Reaches d c
| entry
    {name : Bytes}
    {c : Declaration}
    (hReference : Reaches d (.reference (.entry name)))
    (hEntry : d.entry? name = some c) :
    Reaches d c

------------------------------------------------------------
-- Actions That Do Not Fail
------------------------------------------------------------

namespace Draft

variable {α β : Type}

/- An action succeeds, whatever table it starts from. -/
def Succeeds (action : Action α) : Prop :=
  ∀ draft, ∃ value next, Runs action draft value next

theorem succeeds_pure
    (value : α) :
    Succeeds (pure value : Action α) :=
  fun draft => ⟨value, draft, rfl⟩

theorem succeeds_get : Succeeds (get : Action Draft) :=
  fun draft => ⟨draft, draft, rfl⟩

theorem succeeds_reserve : Succeeds reserve :=
  fun _ => ⟨_, _, rfl⟩

theorem succeeds_assign
    (id : RuleId)
    (rule : Rule) :
    Succeeds (assign id rule) :=
  fun _ => ⟨_, _, rfl⟩

theorem succeeds_record
    (name : Bytes)
    (id? : Option RuleId) :
    Succeeds (record name id?) :=
  fun _ => ⟨_, _, rfl⟩

theorem succeeds_remark
    (r : Diagnostic) :
    Succeeds (remark r) :=
  fun _ => ⟨_, _, rfl⟩

/- Of two actions in a row neither fails. -/
theorem succeeds_bind
    {action : Action α}
    {k : α → Action β}
    (hAction : Succeeds action)
    (hRest : ∀ value, Succeeds (k value)) :
    Succeeds (action >>= k) := by
  intro draft
  rcases hAction draft with ⟨v, middle, hFirst⟩
  rcases hRest v middle with ⟨value, next, hSecond⟩
  exact ⟨value, next, runs_bind_iff.mpr ⟨v, middle, hFirst, hSecond⟩⟩

/- A pattern that is rejected is remarked on. -/
theorem succeeds_pattern
    {engine : Engine}
    (source : Bytes) :
    Succeeds (pattern engine source) := by
  unfold pattern
  split
  · exact succeeds_pure _
  · exact succeeds_bind (succeeds_remark _) (fun _ => succeeds_pure _)

/- What a kind does is always compiled. -/
theorem succeeds_kind
    {engine : Engine}
    (kind : Declaration.Kind) :
    Succeeds (kind.compile engine) := by
  cases kind with
  | single source captures =>
      exact
        succeeds_bind (succeeds_pattern source)
          (fun _ => succeeds_pure _)
  | region openSource captures endSource endCaptures endLast =>
      apply succeeds_bind (succeeds_pattern openSource)
      intro opening
      split
      · exact succeeds_pure _
      · exact
          succeeds_bind (succeeds_pattern endSource)
            (fun _ => succeeds_pure _)
  | container => exact succeeds_pure _

end Draft

------------------------------------------------------------
-- Grammars That Are Built
------------------------------------------------------------

/-
  Entries are compiled without a failure, as far as compiling
  comes to them.
-/
def GrammarDeclaration.Delivers
    (d : GrammarDeclaration)
    (entry : Bytes → Draft.Action (Option RuleId)) : Prop :=
  ∀ name, (∀ c, d.entry? name = some c → d.Reaches c) →
    Draft.Succeeds (entry name)

namespace Declaration

open Draft

variable {engine : Engine}
variable {d : GrammarDeclaration}
variable {entry : Bytes → Draft.Action (Option RuleId)}

/- Following a reference that compiling comes to. -/
theorem succeeds_target
    (hDelivers : d.Delivers entry)
    {r : Reference}
    (hReached : d.Reaches (.reference r)) :
    Succeeds (target d.scopeName entry r) := by
  cases r with
  | whole => exact succeeds_pure _
  | entry name =>
      exact hDelivers name (fun c hEntry => .entry hReached hEntry)
  | foreign name =>
      exact succeeds_bind (succeeds_remark _) (fun _ => succeeds_pure _)

mutual

/- Compiling a declaration that compiling comes to. -/
theorem succeeds_compile
    (hDelivers : d.Delivers entry)
    (hNone : ¬d.Reaches .unnumbered) :
    ∀ c : Declaration,
      d.Reaches c → Succeeds (compile engine d.scopeName entry c)
| .reference _, hReached => succeeds_target hDelivers hReached
| .rule header children, hReached => by
    apply succeeds_bind (succeeds_kind header.kind)
    intro body
    apply succeeds_bind succeeds_reserve
    intro id
    apply
      succeeds_bind
        (succeeds_compileAll hDelivers hNone children
          (fun c hMember => .child hReached hMember))
    intro patterns
    exact succeeds_bind (succeeds_assign _ _) (fun _ => succeeds_pure _)
| .endless _, _ =>
    succeeds_bind (succeeds_remark _) (fun _ => succeeds_pure _)
| .unnumbered, hReached => absurd hReached hNone
| .invalid, _ => succeeds_pure _

/- Compiling a list of declarations that compiling comes to. -/
theorem succeeds_compileAll
    (hDelivers : d.Delivers entry)
    (hNone : ¬d.Reaches .unnumbered) :
    ∀ cs : List Declaration,
      (∀ c ∈ cs, d.Reaches c) →
        Succeeds (compileAll engine d.scopeName entry cs)
| [], _ => succeeds_pure _
| c :: cs, hReached => by
    apply
      succeeds_bind
        (succeeds_compile hDelivers hNone c
          (hReached c List.mem_cons_self))
    intro id?
    apply
      succeeds_bind
        (succeeds_compileAll hDelivers hNone cs
          (fun other hMember =>
            hReached other (List.mem_cons_of_mem c hMember)))
    exact fun _ => succeeds_pure _

end

/- Compiling an entry that compiling comes to. -/
theorem succeeds_compileInto
    (hDelivers : d.Delivers entry)
    (hNone : ¬d.Reaches .unnumbered)
    {c : Declaration}
    (hReached : d.Reaches c)
    (id : RuleId) :
    Succeeds (compileInto engine d.scopeName entry id c) := by
  cases c with
  | reference r =>
      exact
        succeeds_bind (succeeds_target hDelivers hReached)
          (fun _ => succeeds_assign _ _)
  | rule header children =>
      apply succeeds_bind (succeeds_kind header.kind)
      intro body
      exact
        succeeds_bind
          (succeeds_compileAll hDelivers hNone children
            (fun c hMember => .child hReached hMember))
          (fun _ => succeeds_assign _ _)
  | endless source => exact succeeds_remark _
  | unnumbered => exact absurd hReached hNone
  | invalid => exact succeeds_pure _

end Declaration

namespace GrammarDeclaration

open Draft

variable {engine : Engine}
variable {d : GrammarDeclaration}

/- No entry fails, however deep entries refer to each other. -/
theorem succeeds_entry
    (hNone : ¬d.Reaches .unnumbered)
    (depth : Nat) :
    d.Delivers (d.entry engine depth) := by
  induction depth with
  | zero =>
      intro name _
      exact succeeds_bind succeeds_get (fun _ => succeeds_pure _)
  | succ depth ih =>
      intro name hReached
      apply succeeds_bind succeeds_get
      intro draft
      split
      · exact succeeds_pure _
      · split
        · apply succeeds_bind (succeeds_remark _)
          intro _
          exact
            succeeds_bind (succeeds_record _ _) (fun _ => succeeds_pure _)
        · next c hEntry =>
            apply succeeds_bind succeeds_reserve
            intro id
            apply succeeds_bind (succeeds_record _ _)
            intro _
            exact
              succeeds_bind
                (Declaration.succeeds_compileInto ih hNone
                  (hReached c hEntry) id)
                (fun _ => succeeds_pure _)

end GrammarDeclaration

------------------------------------------------------------
-- What Was Compiled
------------------------------------------------------------

/-
  An entry is known if there is one of that name and it was
  referred to.
-/
def Draft.Covers
    (draft : Draft)
    (d : GrammarDeclaration)
    (name : Bytes) : Prop :=
  (d.entry? name).isSome → (draft.known? name).isSome

namespace Declaration

mutual

/-
  No group is numbered beyond 64 bits in what is written in a
  declaration, and the entries that it refers to are known.
-/
def Settled (known : Bytes → Prop) : Declaration → Prop
| .reference (.entry name) => known name
| .reference _ => True
| .rule _ children => AllSettled known children
| .endless _ => True
| .unnumbered => False
| .invalid => True

/- So it is in a list of declarations. -/
def AllSettled (known : Bytes → Prop) : List Declaration → Prop
| [] => True
| c :: cs => Settled known c ∧ AllSettled known cs

end

variable {known later : Bytes → Prop}

/- What is in a list that is settled is settled. -/
theorem settled_of_mem
    {c : Declaration} :
    ∀ {cs : List Declaration},
      AllSettled known cs → c ∈ cs → Settled known c
| [], _, hMember => by cases hMember
| first :: cs, hSettled, hMember => by
    rcases List.mem_cons.mp hMember with rfl | hRest
    · exact hSettled.1
    · exact settled_of_mem hSettled.2 hRest

mutual

/- What is settled stays so while more entries get known. -/
theorem settled_mono
    (hLater : ∀ name, known name → later name) :
    ∀ c : Declaration, Settled known c → Settled later c
| .reference (.entry name), hSettled => hLater name hSettled
| .reference .whole, _ => trivial
| .reference (.foreign _), _ => trivial
| .rule _ children, hSettled =>
    allSettled_mono hLater children hSettled
| .endless _, _ => trivial
| .unnumbered, hSettled => hSettled
| .invalid, _ => trivial

theorem allSettled_mono
    (hLater : ∀ name, known name → later name) :
    ∀ cs : List Declaration, AllSettled known cs → AllSettled later cs
| [], _ => trivial
| c :: cs, hSettled =>
    ⟨settled_mono hLater c hSettled.1,
      allSettled_mono hLater cs hSettled.2⟩

end

end Declaration

namespace Draft

variable {d : GrammarDeclaration}
variable {draft middle next : Draft}

/-
  What is known stays, and every entry that gets known is
  settled.
-/
structure Settles (d : GrammarDeclaration) (draft next : Draft) :
    Prop where
  known_eq :
    ∀ name, (draft.known? name).isSome →
      next.known? name = draft.known? name
  settled :
    ∀ {name : Bytes} {c : Declaration},
      draft.known? name = none →
        (next.known? name).isSome →
          d.entry? name = some c → c.Settled (next.Covers d)

/- An entry that is covered stays so. -/
theorem covers_of_settles
    (hSettles : Settles d draft next)
    (name : Bytes)
    (hCovers : draft.Covers d name) :
    next.Covers d name := by
  intro hEntry
  have hKnown := hCovers hEntry
  rw [hSettles.known_eq name hKnown]
  exact hKnown

/- Only what is recorded of the entries counts. -/
theorem settles_of_entries
    (hEntries : next.entries = draft.entries) :
    Settles d draft next where
  known_eq := by
    intro name _
    rw [known?, known?, hEntries]
  settled := by
    intro name c hBefore hAfter
    rw [known?, hEntries, ← known?, hBefore] at hAfter
    cases hAfter

theorem settles_trans
    (hFirst : Settles d draft middle)
    (hSecond : Settles d middle next) :
    Settles d draft next where
  known_eq := by
    intro name hKnown
    rw [hSecond.known_eq name, hFirst.known_eq name hKnown]
    rw [hFirst.known_eq name hKnown]
    exact hKnown
  settled := by
    intro name c hBefore hAfter hEntry
    cases hMiddle : middle.known? name with
    | none => exact hSecond.settled hMiddle hAfter hEntry
    | some id? =>
        apply Declaration.settled_mono (covers_of_settles hSecond)
        exact hFirst.settled hBefore (by simp [hMiddle]) hEntry

/- Fewer entries are unknown later. -/
theorem length_unknown_of_settles
    {depth : Nat}
    (hSettles : Settles d draft next)
    (hDepth : (draft.unknown d).length ≤ depth) :
    (next.unknown d).length ≤ depth :=
  Nat.le_trans (length_unknown_le hSettles.known_eq) hDepth

end Draft

/-
  Compiling an entry settles it, as long as no more than `depth`
  entries are unknown.
-/
def GrammarDeclaration.Settling
    (d : GrammarDeclaration)
    (depth : Nat)
    (entry : Bytes → Draft.Action (Option RuleId)) : Prop :=
  ∀ {name : Bytes} {draft next : Draft} {id? : Option RuleId},
    (draft.unknown d).length ≤ depth →
      Draft.Runs (entry name) draft id? next →
        Draft.Settles d draft next ∧ next.Covers d name

namespace Declaration

open Draft

variable {engine : Engine}
variable {d : GrammarDeclaration}
variable {depth : Nat}
variable {entry : Bytes → Draft.Action (Option RuleId)}
variable {draft next : Draft}

/- Following a reference settles it. -/
theorem settles_target
    (hSettling : d.Settling depth entry)
    {r : Reference}
    {id? : Option RuleId}
    (hDepth : (draft.unknown d).length ≤ depth)
    (hRuns : Runs (target d.scopeName entry r) draft id? next) :
    Settles d draft next ∧
      Settled (next.Covers d) (.reference r) := by
  cases r with
  | whole =>
      rcases runs_pure_iff.mp hRuns with ⟨_, rfl⟩
      exact ⟨settles_of_entries rfl, trivial⟩
  | entry name => exact hSettling hDepth hRuns
  | foreign name =>
      rcases runs_bind_iff.mp hRuns with ⟨_, middle, hRemark, hRest⟩
      rcases runs_pure_iff.mp hRest with ⟨_, rfl⟩
      cases runs_remark_iff.mp hRemark
      exact ⟨settles_of_entries rfl, trivial⟩

mutual

/- Compiling a declaration settles it. -/
theorem settles_compile
    (hSettling : d.Settling depth entry) :
    ∀ (c : Declaration) {draft next : Draft} {id? : Option RuleId},
      (draft.unknown d).length ≤ depth →
        Runs (compile engine d.scopeName entry c) draft id? next →
          Settles d draft next ∧ c.Settled (next.Covers d)
| .reference r, draft, next, id?, hDepth, hRuns =>
    settles_target hSettling hDepth hRuns
| .rule header children, draft, next, id?, hDepth, hRuns => by
    rcases runs_bind_iff.mp hRuns with ⟨body, first, hBody, hRest⟩
    rcases runs_bind_iff.mp hRest with ⟨id, second, hReserve, hRest⟩
    rcases runs_bind_iff.mp hRest with ⟨patterns, last, hAll, hRest⟩
    rcases runs_bind_iff.mp hRest with ⟨_, final, hAssign, hRest⟩
    rcases runs_pure_iff.mp hRest with ⟨_, rfl⟩
    rcases runs_reserve_iff.mp hReserve with ⟨_, rfl⟩
    cases runs_assign_iff.mp hAssign
    -- Only the list in between changes what is known.
    have hFirst :
        Settles d draft
          { first with rules := first.rules.push Rule.hollow } :=
      settles_of_entries (sameTable_of_runs_compile hBody).2.entries_eq
    rcases
        settles_compileAll hSettling children
          (length_unknown_of_settles hFirst hDepth) hAll with
      ⟨hInner, hSettled⟩
    exact
      ⟨settles_trans hFirst
        (settles_trans hInner (settles_of_entries rfl)), hSettled⟩
| .endless source, draft, next, id?, _, hRuns => by
    rcases runs_bind_iff.mp hRuns with ⟨_, middle, hRemark, hRest⟩
    rcases runs_pure_iff.mp hRest with ⟨_, rfl⟩
    cases runs_remark_iff.mp hRemark
    exact ⟨settles_of_entries rfl, trivial⟩
| .unnumbered, draft, next, id?, _, hRuns =>
    absurd hRuns not_runs_throw
| .invalid, draft, next, id?, _, hRuns => by
    rcases runs_pure_iff.mp hRuns with ⟨_, rfl⟩
    exact ⟨settles_of_entries rfl, trivial⟩

/- Compiling a list of declarations settles them. -/
theorem settles_compileAll
    (hSettling : d.Settling depth entry) :
    ∀ (cs : List Declaration) {draft next : Draft}
      {ids : List RuleId},
      (draft.unknown d).length ≤ depth →
        Runs (compileAll engine d.scopeName entry cs) draft ids next →
          Settles d draft next ∧ AllSettled (next.Covers d) cs
| [], draft, next, ids, _, hRuns => by
    rcases runs_pure_iff.mp hRuns with ⟨_, rfl⟩
    exact ⟨settles_of_entries rfl, trivial⟩
| c :: cs, draft, next, ids, hDepth, hRuns => by
    rcases runs_bind_iff.mp hRuns with ⟨id?, middle, hFirst, hRest⟩
    rcases runs_bind_iff.mp hRest with ⟨rest, last, hAll, hRest⟩
    rcases runs_pure_iff.mp hRest with ⟨_, rfl⟩
    rcases settles_compile hSettling c hDepth hFirst with
      ⟨hHere, hSettled⟩
    rcases
        settles_compileAll hSettling cs
          (length_unknown_of_settles hHere hDepth) hAll with
      ⟨hMore, hAllSettled⟩
    exact
      ⟨settles_trans hHere hMore,
        settled_mono (covers_of_settles hMore) c hSettled,
        hAllSettled⟩

end

/- Compiling an entry that was reserved settles its declaration. -/
theorem settles_compileInto
    (hSettling : d.Settling depth entry)
    {c : Declaration}
    {id : RuleId}
    (hDepth : (draft.unknown d).length ≤ depth)
    (hRuns :
      Runs (compileInto engine d.scopeName entry id c) draft () next) :
    Settles d draft next ∧ c.Settled (next.Covers d) := by
  cases c with
  | reference r =>
      rcases runs_bind_iff.mp hRuns with ⟨id?, middle, hTarget, hAssign⟩
      cases runs_assign_iff.mp hAssign
      rcases settles_target hSettling hDepth hTarget with
        ⟨hInner, hSettled⟩
      exact
        ⟨settles_trans hInner (settles_of_entries rfl), hSettled⟩
  | rule header children =>
      rcases runs_bind_iff.mp hRuns with ⟨body, first, hBody, hRest⟩
      rcases runs_bind_iff.mp hRest with ⟨patterns, last, hAll, hAssign⟩
      cases runs_assign_iff.mp hAssign
      have hFirst : Settles d draft first :=
        settles_of_entries
          (sameTable_of_runs_compile hBody).2.entries_eq
      rcases
          settles_compileAll hSettling children
            (length_unknown_of_settles hFirst hDepth) hAll with
        ⟨hInner, hSettled⟩
      exact
        ⟨settles_trans hFirst
          (settles_trans hInner (settles_of_entries rfl)), hSettled⟩
  | endless source =>
      cases runs_remark_iff.mp hRuns
      exact ⟨settles_of_entries rfl, trivial⟩
  | unnumbered => exact absurd hRuns not_runs_throw
  | invalid =>
      rcases runs_pure_iff.mp hRuns with ⟨_, rfl⟩
      exact ⟨settles_of_entries rfl, trivial⟩

end Declaration

namespace GrammarDeclaration

open Draft

variable {engine : Engine}
variable {d : GrammarDeclaration}

/- An entry that is missed settles nothing. -/
theorem settles_missed
    {name : Bytes}
    {draft : Draft}
    (hUnknown : draft.known? name = none)
    (hEntry : d.entry? name = none)
    (remarks : List Diagnostic) :
    Settles d draft
      { draft with
        entries := (name, none) :: draft.entries
        remarks := remarks } where
  known_eq := by
    intro other hKnown
    rw [known?_missed, if_neg]
    rintro rfl
    rw [hUnknown] at hKnown
    cases hKnown
  settled := by
    intro other c hBefore hAfter hOther
    rw [known?_missed] at hAfter
    split at hAfter
    · next hSame =>
        rw [← hSame, hEntry] at hOther
        cases hOther
    · rw [hBefore] at hAfter
      cases hAfter

/- An entry is settled once its declaration is. -/
theorem settles_reservedFor
    {name : Bytes}
    {c : Declaration}
    {draft next : Draft}
    (hUnknown : draft.known? name = none)
    (hEntry : d.entry? name = some c)
    (hInner : Settles d (draft.reservedFor name) next)
    (hSettled : c.Settled (next.Covers d)) :
    Settles d draft next ∧ next.Covers d name := by
  have hReserved := known?_eq_of_reservedFor hUnknown
  constructor
  · constructor
    case known_eq =>
      intro other hKnown
      rw [hInner.known_eq other, hReserved other hKnown]
      rw [hReserved other hKnown]
      exact hKnown
    case settled =>
      intro other e hBefore hAfter hOther
      by_cases hSame : name = other
      · rw [← hSame, hEntry] at hOther
        rw [← Option.some.inj hOther]
        exact hSettled
      · apply hInner.settled _ hAfter hOther
        rw [known?_reservedFor, if_neg hSame]
        exact hBefore
  · intro _
    have hTaken : ((draft.reservedFor name).known? name).isSome := by
      rw [known?_reservedFor, if_pos rfl]
      rfl
    rw [hInner.known_eq name hTaken]
    exact hTaken

/-
  Compiling an entry settles it.  The induction is on the number
  of entries that may be unknown.
-/
theorem settles_entry :
    ∀ depth : Nat, d.Settling depth (d.entry engine depth)
| 0, name, draft, next, id?, hDepth, hRuns => by
    rcases runs_bind_iff.mp hRuns with ⟨_, _, hGet, hRest⟩
    rcases runs_get_iff.mp hGet with ⟨rfl, rfl⟩
    rcases runs_pure_iff.mp hRest with ⟨_, rfl⟩
    refine ⟨settles_of_entries rfl, ?_⟩
    intro hEntry
    exact isSome_known? (Nat.le_zero.mp hDepth) hEntry
| depth + 1, name, draft, next, id?, hDepth, hRuns => by
    rcases runs_bind_iff.mp hRuns with ⟨_, _, hGet, hRest⟩
    rcases runs_get_iff.mp hGet with ⟨rfl, rfl⟩
    split at hRest
    · next known hKnown =>
        rcases runs_pure_iff.mp hRest with ⟨_, rfl⟩
        exact
          ⟨settles_of_entries rfl, fun _ => by simp [hKnown]⟩
    · next hUnknown =>
        split at hRest
        · next hEntry =>
            rcases runs_bind_iff.mp hRest with ⟨_, _, hRemark, hRest⟩
            rcases runs_bind_iff.mp hRest with ⟨_, _, hRecord, hRest⟩
            rcases runs_pure_iff.mp hRest with ⟨_, rfl⟩
            cases runs_remark_iff.mp hRemark
            cases runs_record_iff.mp hRecord
            refine ⟨settles_missed hUnknown hEntry _, ?_⟩
            intro hSome
            rw [hEntry] at hSome
            cases hSome
        · next c hEntry =>
            rcases runs_bind_iff.mp hRest with ⟨id, _, hReserve, hRest⟩
            rcases runs_bind_iff.mp hRest with ⟨_, _, hRecord, hRest⟩
            rcases runs_bind_iff.mp hRest with ⟨_, last, hInto, hRest⟩
            rcases runs_pure_iff.mp hRest with ⟨_, rfl⟩
            rcases runs_reserve_iff.mp hReserve with ⟨rfl, rfl⟩
            cases runs_record_iff.mp hRecord
            have hLess :
                ((draft.reservedFor name).unknown d).length <
                  (draft.unknown d).length :=
              length_unknown_lt (known?_eq_of_reservedFor hUnknown)
                (mem_names_of_declared hEntry) hUnknown
                (by rw [known?_reservedFor, if_pos rfl]; rfl)
            have hBelow :
                ((draft.reservedFor name).unknown d).length ≤ depth := by
              omega
            rcases
                Declaration.settles_compileInto (settles_entry depth)
                  hBelow hInto with
              ⟨hInner, hSettled⟩
            exact settles_reservedFor hUnknown hEntry hInner hSettled

end GrammarDeclaration

------------------------------------------------------------
-- Grammars
------------------------------------------------------------

namespace Grammar

open Draft

variable {d : GrammarDeclaration}

/- All that compiling comes to is settled once a grammar is built. -/
theorem settled_of_reaches
    {engine : Engine}
    {last : Draft}
    {patterns : List RuleId}
    (hAll :
      Runs
        (Declaration.compileAll engine d.scopeName
          (d.entry engine (d.repository.length + 1)) d.patterns)
        Draft.start patterns last)
    {c : Declaration}
    (hReached : d.Reaches c) :
    c.Settled (last.Covers d) := by
  rcases
      Declaration.settles_compileAll
        (GrammarDeclaration.settles_entry _) d.patterns
        (length_unknown_start d) hAll with
    ⟨hSettles, hPatterns⟩
  induction hReached with
  | root hMember => exact Declaration.settled_of_mem hPatterns hMember
  | child hRule hMember ih => exact Declaration.settled_of_mem ih hMember
  | entry hReference hEntry ih =>
      -- Nothing was known at the start.
      exact hSettles.settled rfl (ih (by simp [hEntry])) hEntry

/-
  A grammar cannot be built just if compiling it comes to a rule
  that numbers a group beyond 64 bits.
-/
theorem ofDeclaration_eq_error_iff
    {engine : BoundedEngine}
    {e : TableError} :
    (ofDeclaration engine d).1 = .error e ↔ d.Reaches .unnumbered := by
  rcases hRun : (d.compile engine.toEngine).run.run Draft.start with
    ⟨outcome, draft⟩
  unfold ofDeclaration
  rw [hRun]
  constructor
  · intro hError
    by_contra hNone
    rcases
        succeeds_bind
          (Declaration.succeeds_compileAll
            (GrammarDeclaration.succeeds_entry hNone
              (d.repository.length + 1))
            hNone d.patterns (fun c hMember => .root hMember))
          (fun patterns =>
            succeeds_assign rootId
              { Rule.hollow with
                name := d.scopeName
                patterns := patterns })
          Draft.start with
      ⟨value, next, hRuns⟩
    have hSame : (outcome, draft) = (.ok value, next) :=
      hRun.symm.trans hRuns
    cases hSame
    cases hError
  · intro hReached
    cases outcome with
    | error e' =>
        cases e
        cases e'
        rfl
    | ok value =>
        rcases runs_bind_iff.mp hRun with ⟨patterns, last, hAll, _⟩
        exact (settled_of_reaches hAll hReached).elim

end Grammar

end Marginalia

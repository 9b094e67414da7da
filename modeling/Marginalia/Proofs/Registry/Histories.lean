import Mathlib.Data.List.Forall2
import Marginalia.Proofs.Registry.Memory

/-
  This file proves what a registry replies to any calls in a row,
  where the files may change between the calls.

  What is remembered of a file or of a language is not forgotten,
  and what is remembered of a language is what is remembered of
  its file.  So the first reply for a file is the reply for every
  language of the file from then on, and the file is not read
  again.

  Key definitions include:
    * `Registry.Call`, `Registry.Exchange`
    * `Registry.answer`, `Registry.exchanges`, `Registry.after`
    * `Registry.Keeps`
    * `Registry.filed?`, `Registry.Coherent`
    * `Registry.Exchange.Repeats`
  The main statements are:
    * `Registry.keeps_after`
    * `Registry.exchanges_filed`
    * `Registry.nodup_reads`
    * `Registry.replies_of_repeats`
    * `Registry.exchanges_consistent`
-/

namespace Marginalia

namespace Registry

------------------------------------------------------------
-- Calls
------------------------------------------------------------

/- A call: what the files hold by then, and a language. -/
structure Call where
  files : Files
  language : Bytes

/- A call, the reply, the registry that is left, and the remarks. -/
structure Exchange where
  call : Call
  reply : Except TableError (Option LoadedGrammar)
  next : Registry
  remarks : List Diagnostic

/- The path that was read for a reply, which is remarked first. -/
def Exchange.read? (exchange : Exchange) : Option Bytes :=
  match exchange.remarks with
  | .loading _ path :: _ => some path
  | _ => none

/- What becomes of a call. -/
def answer (registry : Registry) (call : Call) : Exchange :=
  let out := registry.grammarFor call.files call.language
  ⟨call, out.1, out.2.1, out.2.2⟩

/- What becomes of some calls in a row. -/
def exchanges : Registry → List Call → List Exchange
| _, [] => []
| registry, call :: calls =>
    registry.answer call :: (registry.answer call).next.exchanges calls

/- The registry that some calls leave. -/
def after : Registry → List Call → Registry
| registry, [] => registry
| registry, call :: calls => (registry.answer call).next.after calls

/- The ways to answer a call. -/
theorem exists_answer
    (registry : Registry)
    (call : Call) :
    ∃ reply next remarks,
      registry.answer call = ⟨call, reply, next, remarks⟩ ∧
        Asked call.files registry call.language reply next remarks :=
  ⟨_, _, _, rfl, asked_grammarFor call.files registry call.language⟩

/- There is one exchange for each call. -/
theorem calls_exchanges
    (calls : List Call) :
    ∀ registry : Registry,
      (registry.exchanges calls).map Exchange.call = calls := by
  induction calls with
  | nil => exact fun _ => rfl
  | cons call calls ih =>
      intro registry
      rw [exchanges, List.map_cons, ih]
      rfl

------------------------------------------------------------
-- Memory
------------------------------------------------------------

/- What was remembered last of a key is found. -/
theorem remembered?_cons_self
    (key : Bytes)
    (result : Option LoadedGrammar)
    (memory : List (Bytes × Option LoadedGrammar)) :
    remembered? key ((key, result) :: memory) = some result := by
  simp [remembered?]

/- What is found stays if a key that is not found is remembered. -/
theorem remembered?_cons_of_some
    {key other : Bytes}
    {result : Option LoadedGrammar}
    {memory : List (Bytes × Option LoadedGrammar)}
    (hOther : remembered? other memory = none)
    (hKey : remembered? key memory = some result)
    (more : Option LoadedGrammar) :
    remembered? key ((other, more) :: memory) = some result := by
  have hNe : other ≠ key := by
    intro hSame
    rw [hSame, hKey] at hOther
    cases hOther
  have hBeq : (other == key) = false := beq_false_of_ne hNe
  unfold remembered?
  rw [List.find?_cons, hBeq]
  exact hKey

/- The second registry has all that the first one remembers. -/
structure Keeps (registry next : Registry) : Prop where
  engine_eq : next.engine = registry.engine
  descriptors_eq : next.descriptors = registry.descriptors
  excluded_eq : next.excluded = registry.excluded
  byPath_eq :
    ∀ {path : Bytes} {result : Option LoadedGrammar},
      remembered? path registry.byPath = some result →
        remembered? path next.byPath = some result
  byLanguage_eq :
    ∀ {key : Bytes} {result : Option LoadedGrammar},
      remembered? key registry.byLanguage = some result →
        remembered? key next.byLanguage = some result

theorem keeps_refl
    (registry : Registry) :
    Keeps registry registry :=
  ⟨rfl, rfl, rfl, fun hPath => hPath, fun hKey => hKey⟩

theorem keeps_trans
    {registry middle next : Registry}
    (hFirst : Keeps registry middle)
    (hSecond : Keeps middle next) :
    Keeps registry next :=
  ⟨hSecond.engine_eq.trans hFirst.engine_eq,
    hSecond.descriptors_eq.trans hFirst.descriptors_eq,
    hSecond.excluded_eq.trans hFirst.excluded_eq,
    fun hPath => hSecond.byPath_eq (hFirst.byPath_eq hPath),
    fun hKey => hSecond.byLanguage_eq (hFirst.byLanguage_eq hKey)⟩

/- Nothing is forgotten in a call. -/
theorem keeps_answer
    (registry : Registry)
    (call : Call) :
    Keeps registry (registry.answer call).next := by
  rcases exists_answer registry call with
    ⟨reply, next, remarks, hAnswer, hAsked⟩
  rw [hAnswer]
  cases hAsked with
  | recalled => exact keeps_refl registry
  | uncovered hLanguage hDescriptor =>
      exact
        ⟨rfl, rfl, rfl, fun hPath => hPath,
          fun hKey => remembered?_cons_of_some hLanguage hKey _⟩
  | shared hLanguage hDescriptor hPath =>
      exact
        ⟨rfl, rfl, rfl, fun hOther => hOther,
          fun hKey => remembered?_cons_of_some hLanguage hKey _⟩
  | loaded hLanguage hDescriptor hPath hFile =>
      exact
        ⟨rfl, rfl, rfl,
          fun hOther => remembered?_cons_of_some hPath hOther _,
          fun hKey => remembered?_cons_of_some hLanguage hKey _⟩
  | failed => exact keeps_refl registry

/- Nothing is forgotten in any calls. -/
theorem keeps_after
    (calls : List Call) :
    ∀ registry : Registry, Keeps registry (registry.after calls) := by
  induction calls with
  | nil => exact keeps_refl
  | cons call calls ih =>
      intro registry
      exact keeps_trans (keeps_answer registry call) (ih _)

/- Each of some calls leaves all that was remembered before them. -/
theorem keeps_of_mem_exchanges
    (calls : List Call) :
    ∀ {registry : Registry},
      ∀ exchange ∈ registry.exchanges calls,
        Keeps registry exchange.next := by
  induction calls with
  | nil =>
      intro registry exchange hExchange
      cases hExchange
  | cons call calls ih =>
      intro registry exchange hExchange
      have hFirst := keeps_answer registry call
      rcases List.mem_cons.mp hExchange with rfl | hLater
      · exact hFirst
      · exact keeps_trans hFirst (ih exchange hLater)

/- The reply for a language is remembered, unless the load fails. -/
theorem remembered?_answer
    {registry : Registry}
    {call : Call}
    {result : Option LoadedGrammar}
    (hReply : (registry.answer call).reply = .ok result) :
    remembered? call.language.lower
      (registry.answer call).next.byLanguage = some result := by
  rcases exists_answer registry call with
    ⟨reply, next, remarks, hAnswer, hAsked⟩
  rw [hAnswer] at hReply ⊢
  dsimp only at hReply ⊢
  cases hAsked with
  | recalled hLanguage =>
      rw [hLanguage, Except.ok.inj hReply]
  | uncovered hLanguage hDescriptor =>
      rw [← Except.ok.inj hReply]
      exact remembered?_cons_self _ _ _
  | shared hLanguage hDescriptor hPath =>
      rw [← Except.ok.inj hReply]
      exact remembered?_cons_self _ _ _
  | loaded hLanguage hDescriptor hPath hFile =>
      rw [← Except.ok.inj hReply]
      exact remembered?_cons_self _ _ _
  | failed => cases hReply

/- A language that is remembered is answered from memory. -/
theorem answer_of_remembered?
    {registry : Registry}
    {call : Call}
    {result : Option LoadedGrammar}
    (hLanguage :
      remembered? call.language.lower registry.byLanguage =
        some result) :
    registry.answer call = ⟨call, .ok result, registry, []⟩ := by
  unfold answer
  rw [grammarFor_of_asked (.recalled hLanguage)]

------------------------------------------------------------
-- Languages and Files
------------------------------------------------------------

/- The descriptor of a language stays the same. -/
theorem descriptor?_of_keeps
    {registry next : Registry}
    (hKeeps : Keeps registry next)
    (language : Bytes) :
    next.descriptor? language = registry.descriptor? language :=
  descriptor?_of_descriptors hKeeps.descriptors_eq hKeeps.excluded_eq
    language

/-
  A language has no descriptor if it is empty, or refused, or no
  descriptor covers it.
-/
theorem descriptor?_create_eq_none_iff
    {engine : BoundedEngine}
    {descriptors : List Descriptor}
    {excluded : List Bytes}
    {language : Bytes} :
    (create engine descriptors excluded).descriptor? language = none ↔
      language = [] ∨
        (∃ name ∈ excluded, name.lower = language.lower) ∨
          ∀ d ∈ descriptors, ∀ name ∈ d.languages,
            name.lower ≠ language.lower := by
  have hEmpty : language.lower.isEmpty ↔ language = [] := by
    simp [Bytes.lower]
  have hRefused :
      (excluded.map Bytes.lower).contains language.lower ↔
        ∃ name ∈ excluded, name.lower = language.lower := by
    simp
  have hUncovered :
      descriptors.find? (fun d =>
          d.languages.any (fun name => name.lower == language.lower)) =
            none ↔
        ∀ d ∈ descriptors, ∀ name ∈ d.languages,
          name.lower ≠ language.lower := by
    simp
  unfold descriptor? create
  dsimp only
  rw [← hEmpty, ← hRefused, ← hUncovered]
  split
  · next hEither =>
      simp only [true_iff]
      rcases Bool.or_eq_true_iff.mp hEither with hFirst | hSecond
      · exact Or.inl hFirst
      · exact Or.inr (Or.inl hSecond)
  · next hNeither =>
      rw [Bool.or_eq_true_iff, not_or] at hNeither
      exact ⟨fun hNone => Or.inr (Or.inr hNone), fun hAny =>
        (hAny.resolve_left hNeither.1).resolve_left hNeither.2⟩

/-
  What is remembered of the file of a language.  A language
  without a descriptor has no grammar.
-/
def filed?
    (registry : Registry)
    (language : Bytes) : Option (Option LoadedGrammar) :=
  match registry.descriptor? language with
  | none => some none
  | some d => remembered? d.path registry.byPath

/- What is remembered of the file of a language stays. -/
theorem filed?_of_keeps
    {registry next : Registry}
    {language : Bytes}
    {result : Option LoadedGrammar}
    (hKeeps : Keeps registry next)
    (hFiled : registry.filed? language = some result) :
    next.filed? language = some result := by
  unfold filed? at hFiled ⊢
  rw [descriptor?_of_keeps hKeeps]
  split at hFiled
  · exact hFiled
  · exact hKeeps.byPath_eq hFiled

/- What is remembered of a language is remembered of its file. -/
def Coherent (registry : Registry) : Prop :=
  ∀ (language : Bytes) (result : Option LoadedGrammar),
    remembered? language.lower registry.byLanguage = some result →
      registry.filed? language = some result

/- A registry that remembers nothing is coherent. -/
theorem coherent_create
    (engine : BoundedEngine)
    (descriptors : List Descriptor)
    (excluded : List Bytes) :
    Coherent (create engine descriptors excluded) := by
  intro language result hLanguage
  cases hLanguage

/- What is remembered of a file may be remembered of a language. -/
theorem coherent_rememberLanguage
    {registry : Registry}
    {language : Bytes}
    {result : Option LoadedGrammar}
    (hCoherent : Coherent registry)
    (hFiled : registry.filed? language = some result) :
    Coherent (registry.rememberLanguage language.lower result) := by
  intro other found hFound
  -- The descriptors and the memory of files are those of before.
  change registry.filed? other = some found
  by_cases hSame : language.lower = other.lower
  · rw [hSame] at hFound
    change
      remembered? other.lower
        ((other.lower, result) :: registry.byLanguage) = some found
      at hFound
    rw [remembered?_cons_self] at hFound
    rw [← hFound, ← hFiled]
    unfold filed?
    rw [descriptor?_congr hSame]
  · apply hCoherent
    have hBeq : (language.lower == other.lower) = false :=
      beq_false_of_ne hSame
    unfold remembered? rememberLanguage at hFound
    rw [List.find?_cons, hBeq] at hFound
    exact hFound

/- What is remembered of one more file is in nobody's way. -/
theorem coherent_rememberPath
    {registry : Registry}
    {path : Bytes}
    (hCoherent : Coherent registry)
    (hPath : remembered? path registry.byPath = none)
    (grammar? : Option Grammar) :
    Coherent (registry.rememberPath path grammar?).2 := by
  have hKeeps :
      Keeps registry (registry.rememberPath path grammar?).2 :=
    ⟨rfl, rfl, rfl,
      fun hOther => remembered?_cons_of_some hPath hOther _,
      fun hKey => hKey⟩
  intro language result hLanguage
  exact filed?_of_keeps hKeeps (hCoherent language result hLanguage)

/- The file that was loaded is remembered. -/
theorem filed?_rememberPath
    {registry : Registry}
    {language : Bytes}
    {d : Descriptor}
    (hDescriptor : registry.descriptor? language = some d)
    (grammar? : Option Grammar) :
    (registry.rememberPath d.path grammar?).2.filed? language =
      some (registry.rememberPath d.path grammar?).1 := by
  have hSame :
      (registry.rememberPath d.path grammar?).2.descriptor? language =
        registry.descriptor? language := rfl
  unfold filed?
  rw [hSame, hDescriptor]
  exact remembered?_cons_self _ _ _

/-
  After a call the registry is coherent, and a reply is what is
  remembered of the file of the language.
-/
theorem coherent_answer
    {registry : Registry}
    (hCoherent : Coherent registry)
    (call : Call) :
    Coherent (registry.answer call).next ∧
      ∀ result, (registry.answer call).reply = .ok result →
        (registry.answer call).next.filed? call.language =
          some result := by
  have hNext : Coherent (registry.answer call).next := by
    rcases exists_answer registry call with
      ⟨reply, next, remarks, hAnswer, hAsked⟩
    rw [hAnswer]
    cases hAsked with
    | recalled => exact hCoherent
    | uncovered hLanguage hDescriptor =>
        apply coherent_rememberLanguage hCoherent
        rw [filed?, hDescriptor]
    | shared hLanguage hDescriptor hPath =>
        apply coherent_rememberLanguage hCoherent
        rw [filed?, hDescriptor]
        exact hPath
    | loaded hLanguage hDescriptor hPath hFile =>
        apply coherent_rememberLanguage
        · exact coherent_rememberPath hCoherent hPath _
        · exact filed?_rememberPath hDescriptor _
    | failed => exact hCoherent
  exact
    ⟨hNext, fun result hReply =>
      hNext call.language result (remembered?_answer hReply)⟩

/- There is a reply if no load fails. -/
theorem exists_reply
    {registry : Registry}
    {call : Call}
    (hLoads :
      ∀ d ∈ registry.descriptors,
        Loads registry.engine call.files d) :
    ∃ result, (registry.answer call).reply = .ok result := by
  rcases exists_answer registry call with
    ⟨reply, next, remarks, hAnswer, hAsked⟩
  rw [hAnswer]
  cases hAsked with
  | failed hLanguage hDescriptor hPath hFile =>
      rcases hLoads _ (mem_of_descriptor? hDescriptor) with
        ⟨grammar?, hLoad⟩
      rw [hFile] at hLoad
      cases hLoad
  | _ => exact ⟨_, rfl⟩

/-
  If no load fails, every reply is what is remembered in the end
  of the file of the language, and of the language.
-/
theorem exchanges_filed
    (calls : List Call) :
    ∀ {registry : Registry},
      Coherent registry →
        (∀ call ∈ calls, ∀ d ∈ registry.descriptors,
          Loads registry.engine call.files d) →
          ∀ exchange ∈ registry.exchanges calls,
            ∃ result,
              exchange.reply = .ok result ∧
                (registry.after calls).filed? exchange.call.language =
                  some result ∧
                  remembered? exchange.call.language.lower
                    (registry.after calls).byLanguage =
                      some result := by
  induction calls with
  | nil =>
      intro registry hCoherent hLoads exchange hExchange
      cases hExchange
  | cons call calls ih =>
      intro registry hCoherent hLoads exchange hExchange
      have hNext := coherent_answer hCoherent call
      rcases List.mem_cons.mp hExchange with rfl | hLater
      · rcases exists_reply (hLoads call List.mem_cons_self) with
          ⟨result, hReply⟩
        refine ⟨result, hReply, ?_, ?_⟩
        · exact
            filed?_of_keeps (keeps_after calls _)
              (hNext.2 result hReply)
        · exact
            (keeps_after calls _).byLanguage_eq
              (remembered?_answer hReply)
      · apply ih hNext.1 _ exchange hLater
        intro other hOther d hMember
        rw [(keeps_answer registry call).descriptors_eq] at hMember
        rw [(keeps_answer registry call).engine_eq]
        exact hLoads other (List.mem_cons_of_mem call hOther) d hMember

------------------------------------------------------------
-- Reads
------------------------------------------------------------

/-
  A path that is read was not remembered, and it is afterwards,
  unless the load fails.
-/
theorem remembered?_of_read?
    {registry : Registry}
    {call : Call}
    {path : Bytes}
    (hRead : (registry.answer call).read? = some path) :
    remembered? path registry.byPath = none ∧
      ∀ result, (registry.answer call).reply = .ok result →
        remembered? path (registry.answer call).next.byPath =
          some result := by
  rcases exists_answer registry call with
    ⟨reply, next, remarks, hAnswer, hAsked⟩
  rw [hAnswer] at hRead ⊢
  cases hAsked with
  | recalled => cases hRead
  | uncovered => cases hRead
  | shared => cases hRead
  | loaded hLanguage hDescriptor hPath hFile =>
      cases hRead
      refine ⟨hPath, ?_⟩
      intro result hReply
      rw [← Except.ok.inj hReply]
      exact remembered?_cons_self _ _ _
  | failed hLanguage hDescriptor hPath hFile =>
      cases hRead
      refine ⟨hPath, ?_⟩
      intro result hReply
      cases hReply

/-
  If no load fails, no path is read twice, and none that was
  remembered is read.
-/
theorem nodup_reads
    (calls : List Call) :
    ∀ {registry : Registry},
      (∀ exchange ∈ registry.exchanges calls,
        ∃ result, exchange.reply = .ok result) →
        ((registry.exchanges calls).filterMap Exchange.read?).Nodup ∧
          ∀ path ∈
              (registry.exchanges calls).filterMap Exchange.read?,
            remembered? path registry.byPath = none := by
  induction calls with
  | nil =>
      intro registry hReplies
      exact ⟨List.nodup_nil, by simp [exchanges]⟩
  | cons call calls ih =>
      intro registry hReplies
      rcases ih (fun exchange hLater =>
        hReplies exchange (List.mem_cons_of_mem _ hLater)) with
          ⟨hNodup, hUnread⟩
      -- What a later call reads was not remembered in this one.
      have hBefore :
          ∀ path ∈
              ((registry.answer call).next.exchanges calls).filterMap
                Exchange.read?,
            remembered? path registry.byPath = none := by
        intro path hPath
        cases hKnown : remembered? path registry.byPath with
        | none => rfl
        | some result =>
            have hKept :=
              (keeps_answer registry call).byPath_eq hKnown
            rw [hUnread path hPath] at hKept
            cases hKept
      rw [exchanges, List.filterMap_cons]
      cases hRead : (registry.answer call).read? with
      | none => exact ⟨hNodup, hBefore⟩
      | some path =>
          rcases remembered?_of_read? hRead with ⟨hNew, hAfter⟩
          constructor
          · apply List.nodup_cons.mpr
            refine ⟨?_, hNodup⟩
            intro hAgain
            rcases hReplies (registry.answer call) List.mem_cons_self
              with ⟨result, hReply⟩
            have hKept := hAfter result hReply
            rw [hUnread path hAgain] at hKept
            cases hKept
          · intro other hOther
            rcases List.mem_cons.mp hOther with rfl | hLater
            · exact hNew
            · exact hBefore other hLater

------------------------------------------------------------
-- Other Files
------------------------------------------------------------

/-
  The same language is asked for in any case, and the file that
  was read for the reply holds the same.
-/
structure Exchange.Repeats (exchange : Exchange) (call : Call) :
    Prop where
  lower_eq : call.language.lower = exchange.call.language.lower
  files_eq :
    ∀ path, exchange.read? = some path →
      call.files (Path.fileName path) =
        exchange.call.files (Path.fileName path)

/- A load depends on its file alone. -/
theorem loadFile_congr
    {engine : BoundedEngine}
    {files others : Files}
    {path : Bytes}
    (hFile :
      others (Path.fileName path) = files (Path.fileName path)) :
    loadFile engine others path = loadFile engine files path := by
  unfold loadFile
  rw [hFile]

/- A call that repeats another has the same reply. -/
theorem answer_of_repeats
    {registry : Registry}
    {call other : Call}
    (hRepeats : (registry.answer call).Repeats other) :
    (registry.answer other).reply = (registry.answer call).reply ∧
      (registry.answer other).next = (registry.answer call).next := by
  rcases exists_answer registry call with
    ⟨reply, next, remarks, hAnswer, hAsked⟩
  rw [hAnswer] at hRepeats ⊢
  rcases hRepeats with ⟨hLower, hFiles⟩
  dsimp only at hLower hFiles
  unfold answer
  cases hAsked with
  | recalled hLanguage =>
      rw [← hLower] at hLanguage
      rw [grammarFor_of_asked (.recalled hLanguage)]
      exact ⟨rfl, rfl⟩
  | uncovered hLanguage hDescriptor =>
      rw [← hLower] at hLanguage ⊢
      rw [← descriptor?_congr hLower] at hDescriptor
      rw [grammarFor_of_asked (.uncovered hLanguage hDescriptor)]
      exact ⟨rfl, rfl⟩
  | shared hLanguage hDescriptor hPath =>
      rw [← hLower] at hLanguage ⊢
      rw [← descriptor?_congr hLower] at hDescriptor
      rw [grammarFor_of_asked (.shared hLanguage hDescriptor hPath)]
      exact ⟨rfl, rfl⟩
  | loaded hLanguage hDescriptor hPath hFile =>
      rw [← loadFile_congr (hFiles _ rfl)] at hFile
      rw [← hLower] at hLanguage ⊢
      rw [← descriptor?_congr hLower] at hDescriptor
      rw [grammarFor_of_asked
        (.loaded hLanguage hDescriptor hPath hFile)]
      exact ⟨rfl, rfl⟩
  | failed hLanguage hDescriptor hPath hFile =>
      rw [← loadFile_congr (hFiles _ rfl)] at hFile
      rw [← hLower] at hLanguage
      rw [← descriptor?_congr hLower] at hDescriptor
      rw [grammarFor_of_asked
        (.failed hLanguage hDescriptor hPath hFile)]
      exact ⟨rfl, rfl⟩

/- Calls that repeat others in their order have the same replies. -/
theorem replies_of_repeats
    (calls : List Call) :
    ∀ {registry : Registry} {others : List Call},
      List.Forall₂ Exchange.Repeats (registry.exchanges calls) others →
        (registry.exchanges others).map Exchange.reply =
          (registry.exchanges calls).map Exchange.reply := by
  induction calls with
  | nil =>
      intro registry others hRepeat
      cases hRepeat
      rfl
  | cons call calls ih =>
      intro registry others hRepeat
      cases hRepeat with
      | cons hFirst hRest =>
          rcases answer_of_repeats hFirst with ⟨hReply, hNext⟩
          rw [exchanges, exchanges, List.map_cons, List.map_cons,
            hReply, hNext, ih hRest]

------------------------------------------------------------
-- Histories
------------------------------------------------------------

/-
  Whatever happens to the files between the calls, as long as
  they can be loaded, the registry is consistent with itself.

  The reply for a language is decided by its letters, whatever
  their case, and never changes.  Languages whose descriptors
  have one path get one grammar.  No path is read twice, and what
  is not read does not count.  A language that is empty, refused
  or not covered has no grammar, and a language that has one is
  supported.
-/
theorem exchanges_consistent
    (engine : BoundedEngine)
    (descriptors : List Descriptor)
    (excluded : List Bytes)
    (calls : List Call)
    (hLoads :
      ∀ call ∈ calls, ∀ d ∈ descriptors,
        Loads engine call.files d) :
    let registry := create engine descriptors excluded
    let history := registry.exchanges calls
    history.map Exchange.call = calls ∧
      (∃ grammar? : Bytes → Option LoadedGrammar,
        ∀ exchange ∈ history,
          exchange.reply =
            .ok (grammar? exchange.call.language.lower)) ∧
      (∀ first ∈ history, ∀ second ∈ history, ∀ d e,
        registry.descriptor? first.call.language = some d →
          registry.descriptor? second.call.language = some e →
            d.path = e.path → first.reply = second.reply) ∧
      (history.filterMap Exchange.read?).Nodup ∧
      (∀ others,
        List.Forall₂ Exchange.Repeats history others →
          (registry.exchanges others).map Exchange.reply =
            history.map Exchange.reply) ∧
      (∀ exchange ∈ history,
        (exchange.call.language = [] ∨
          (∃ name ∈ excluded,
            name.lower = exchange.call.language.lower) ∨
          ∀ d ∈ descriptors, ∀ name ∈ d.languages,
            name.lower ≠ exchange.call.language.lower) →
          exchange.reply = .ok none) ∧
      ∀ exchange ∈ history, ∀ loaded,
        exchange.reply = .ok (some loaded) →
          registry.supports exchange.call.language ∧
            exchange.next.supports exchange.call.language := by
  intro registry history
  have hFiled :
      ∀ exchange ∈ history,
        ∃ result,
          exchange.reply = .ok result ∧
            (registry.after calls).filed? exchange.call.language =
              some result ∧
              remembered? exchange.call.language.lower
                (registry.after calls).byLanguage = some result :=
    exchanges_filed calls (coherent_create engine descriptors excluded)
      hLoads
  have hKeeps := keeps_after calls registry
  refine ⟨calls_exchanges calls registry, ?_, ?_, ?_, ?_, ?_, ?_⟩
  · refine
      ⟨fun key =>
        (remembered? key (registry.after calls).byLanguage).join, ?_⟩
    intro exchange hExchange
    rcases hFiled exchange hExchange with
      ⟨result, hReply, _, hLanguage⟩
    dsimp only
    rw [hReply, hLanguage]
    rfl
  · intro first hFirst second hSecond d e hD hE hPath
    rcases hFiled first hFirst with ⟨a, hA, hFiledA, _⟩
    rcases hFiled second hSecond with ⟨b, hB, hFiledB, _⟩
    rw [filed?, descriptor?_of_keeps hKeeps, hD] at hFiledA
    rw [filed?, descriptor?_of_keeps hKeeps, hE] at hFiledB
    dsimp only at hFiledA hFiledB
    rw [hPath, hFiledB] at hFiledA
    rw [hA, hB, Option.some.inj hFiledA]
  · apply (nodup_reads calls _).1
    intro exchange hExchange
    rcases hFiled exchange hExchange with ⟨result, hReply, _⟩
    exact ⟨result, hReply⟩
  · exact fun others hRepeat => replies_of_repeats calls hRepeat
  · intro exchange hExchange hNone
    rcases hFiled exchange hExchange with
      ⟨result, hReply, hResult, _⟩
    rw [filed?, descriptor?_of_keeps hKeeps,
      descriptor?_create_eq_none_iff.mpr hNone] at hResult
    rw [hReply, Option.some.inj hResult]
  · intro exchange hExchange loaded hLoaded
    rcases hFiled exchange hExchange with ⟨result, hReply, hResult, _⟩
    rw [hLoaded] at hReply
    rw [← Except.ok.inj hReply, filed?,
      descriptor?_of_keeps hKeeps] at hResult
    have hNext := keeps_of_mem_exchanges calls exchange hExchange
    rw [supports, supports, descriptor?_of_keeps hNext]
    split at hResult
    · cases Option.some.inj hResult
    · next d hDescriptor =>
        rw [hDescriptor]
        exact ⟨rfl, rfl⟩

------------------------------------------------------------
-- A File That Goes Away
------------------------------------------------------------

namespace Vanishing

/- A file for two languages and one that is refused, and a file. -/
def descriptors : List Descriptor :=
  [⟨[utf8 "t", utf8 "log"], utf8 "source.t", utf8 "g.json"⟩,
    ⟨[utf8 "u"], [], utf8 "g.json"⟩,
    ⟨[utf8 "v"], [], utf8 "h.json"⟩]

/- The first file holds a grammar, and the second is not there. -/
def there : Files := fun path =>
  if path = utf8 "g.json" then
    some (utf8 "\x7b\"scopeName\":\"source.t\",\"patterns\":[]\x7d")
  else none

/- Neither file is there. -/
def gone : Files := fun _ => none

/- The first file goes away after the first call. -/
def calls : List Call :=
  [⟨there, utf8 "T"⟩, ⟨gone, utf8 "t"⟩, ⟨gone, utf8 "U"⟩,
    ⟨gone, utf8 "v"⟩, ⟨there, utf8 "LOG"⟩]

/-
  Each file is read once, and the grammar that was read first is
  that of both languages, in any case.  So it is for all calls
  that find the same in the file when it is read.
-/
theorem exchanges_consistent_vanishing :
    let registry := create .standard descriptors [utf8 "Log"]
    let history := registry.exchanges calls
    (∀ call ∈ calls, ∀ d ∈ descriptors,
        Loads .standard call.files d) ∧
      history.filterMap Exchange.read? =
        [utf8 "g.json", utf8 "h.json"] ∧
      ∃ loaded,
        let replies :=
          [.ok (some loaded), .ok (some loaded), .ok (some loaded),
            .ok none, .ok none]
        history.map Exchange.reply = replies ∧
          ∀ others,
            List.Forall₂ Exchange.Repeats history others →
              (registry.exchanges others).map Exchange.reply =
                replies := by
  intro registry history
  have hLoads :
      ∀ call ∈ calls, ∀ d ∈ descriptors,
        Loads .standard call.files d := by
    decide +kernel
  rcases
      exchanges_consistent .standard descriptors [utf8 "Log"] calls
        hLoads with
    ⟨_, _, _, _, hRepeats, _⟩
  exact ⟨hLoads, by decide +kernel, _, rfl, hRepeats⟩

end Vanishing

end Registry

end Marginalia

import Mathlib.Data.List.Nodup
import Marginalia.Proofs.Cache

/-
  This file proves what the cache of tokenized documents holds
  after any operations on it, over any documents.

  An entry is found by one text, which is made of a language and
  a place with a dash between them.  Where a language may have a
  dash in it, two documents can meet in that text.  An entry has
  the version and the grammar that were asked for, but its
  language and its place are only those that were asked for or
  others that meet them.

  Key definitions include:
    * `DocumentName`, `DocumentName.Meets`
    * `ParseCache.Operation`, `ParseCache.after`
    * `ParseCache.Kept`
  The main statements are:
    * `DocumentName.key_eq_iff`, `DocumentName.not_meets`
    * `ParseCache.exists_answer_eq_tokenize`
    * `ParseCache.kept_after`
    * `ParseCache.getOrCreate_after`
-/

namespace Marginalia

------------------------------------------------------------
-- Names of Documents
------------------------------------------------------------

/- What a document is known by: its language and its place. -/
structure DocumentName where
  languageId : Bytes
  uri : Bytes
deriving DecidableEq, Repr

/- The name of a document. -/
def Document.name (document : Document) : DocumentName :=
  ⟨document.languageId, document.uri⟩

/- The name of the document that an entry holds. -/
def CacheEntry.name (entry : CacheEntry) : DocumentName :=
  ⟨entry.document.languageId, entry.document.uri⟩

namespace DocumentName

/- The key of a name. -/
def key (name : DocumentName) : Bytes :=
  ParseCache.key name.languageId name.uri

/-
  The language of another name begins with that of this one and
  a dash, and the place of this one ends in a dash and that of
  the other, with the same part left over.
-/
def Shifts (name other : DocumentName) : Prop :=
  ∃ part,
    other.languageId = name.languageId ++ Ascii.minus :: part ∧
      name.uri = part ++ Ascii.minus :: other.uri

/- Different names with the same key. -/
def Meets (name other : DocumentName) : Prop :=
  name.Shifts other ∨ other.Shifts name

/- A name that shifts to another has its key. -/
theorem key_eq_of_shifts
    {name other : DocumentName}
    (hShifts : name.Shifts other) :
    name.key = other.key := by
  rcases hShifts with ⟨part, hLanguage, hPlace⟩
  simp [key, ParseCache.key, hLanguage, hPlace]

/-
  If the language of another name begins with that of this one,
  and the rest of their keys is the same, then so are the names,
  or this one shifts to the other.
-/
theorem eq_or_shifts
    {name other : DocumentName}
    {part : Bytes}
    (hLanguage : other.languageId = name.languageId ++ part)
    (hRest :
      Ascii.minus :: name.uri = part ++ Ascii.minus :: other.uri) :
    name = other ∨ name.Shifts other := by
  cases part with
  | nil =>
      left
      have hPlace : name.uri = other.uri := (List.cons.inj hRest).2
      rw [List.append_nil] at hLanguage
      cases name
      cases other
      simp_all
  | cons b part =>
      right
      have hBoth := List.cons.inj hRest
      rw [← hBoth.1] at hLanguage
      exact ⟨part, hLanguage, hBoth.2⟩

/- Two names have the same key just if they are the same or meet. -/
theorem key_eq_iff
    {name other : DocumentName} :
    name.key = other.key ↔ name = other ∨ name.Meets other := by
  constructor
  · intro hKeys
    rcases List.append_eq_append_iff.mp hKeys with
      ⟨part, hLanguage, hRest⟩ | ⟨part, hLanguage, hRest⟩
    · rcases eq_or_shifts hLanguage hRest with hSame | hShifts
      · exact Or.inl hSame
      · exact Or.inr (Or.inl hShifts)
    · rcases eq_or_shifts hLanguage hRest with hSame | hShifts
      · exact Or.inl hSame.symm
      · exact Or.inr (Or.inr hShifts)
  · rintro (hSame | hShifts | hShifts)
    · rw [hSame]
    · exact key_eq_of_shifts hShifts
    · exact (key_eq_of_shifts hShifts).symm

/- Names whose languages have no dash do not meet. -/
theorem not_meets
    {name other : DocumentName}
    (hName : Ascii.minus ∉ name.languageId)
    (hOther : Ascii.minus ∉ other.languageId) :
    ¬ name.Meets other := by
  rintro (⟨part, hLanguage, _⟩ | ⟨part, hLanguage, _⟩)
  · rw [hLanguage] at hOther
    simp at hOther
  · rw [hLanguage] at hName
    simp at hName

end DocumentName

namespace ParseCache

------------------------------------------------------------
-- Operations
------------------------------------------------------------

/-
  What is done with a cache: an entry is asked for, lines of one
  are tokenized, one is removed, or all are.  Grammars are known
  by their numbers; a document may be asked for without one.
-/
inductive Operation where
| get
    (document : Document)
    (grammarId? : Option Nat)
    (maxLength : Nat)
| tokenize (key : Bytes) (n : Nat)
| remove (languageId uri : Bytes)
| clear

variable (grammars : Nat → Grammar)

/- The grammar of a number. -/
def given (id : Nat) : LoadedGrammar :=
  ⟨id, grammars id⟩

/- Tokenize more lines of an entry. -/
def tokenize
    (cache : ParseCache)
    (key : Bytes)
    (n : Nat) : ParseCache :=
  match cache.find? key with
  | none => cache
  | some entry =>
      cache.update key
        { entry with document := entry.document.extend n }

/- The cache after an operation. -/
def apply (cache : ParseCache) : Operation → ParseCache
| .get document grammarId? maxLength =>
    (cache.getOrCreate document (grammarId?.map (given grammars))
      maxLength).2
| .tokenize key n => cache.tokenize key n
| .remove languageId uri => cache.remove languageId uri
| .clear => cache.clear

/-
  To answer a question about the entry of a document is to get
  the entry and to tokenize some lines of it.
-/
theorem exists_answer_eq_tokenize
    {α : Type}
    (cache : ParseCache)
    (document : Document)
    (id maxLength : Nat)
    (query : TokenizedDocument → TokenQuery α) :
    ∃ n,
      (cache.answer document (given grammars id) maxLength query).2 =
        apply grammars
          (apply grammars cache (.get document (some id) maxLength))
          (.tokenize (keyOf document) n) := by
  rcases
      cache.exists_getOrCreate document (given grammars id)
        maxLength with
    ⟨entry, later, hGot, hFind, _⟩
  rcases
      TokenizedDocument.exists_extend_answer (query entry.document)
        entry.document with
    ⟨n, hTokenized⟩
  refine ⟨n, ?_⟩
  rw [answer, apply, apply, Option.map_some, hGot, tokenize, hFind]
  dsimp only
  rw [hTokenized]

/- The cache after operations, at first without entries. -/
def after (operations : List Operation) : ParseCache :=
  operations.foldl (apply grammars) empty

/- An operation asked for the entry of a name. -/
def AskedFor
    (operations : List Operation)
    (name : DocumentName) : Prop :=
  ∃ document grammarId? maxLength,
    .get document grammarId? maxLength ∈ operations ∧
      document.name = name

------------------------------------------------------------
-- What Is Kept
------------------------------------------------------------

/-
  The entry was made for a document that was asked for, which
  has this key, with the grammar of its number, and some lines
  of it were tokenized.
-/
def StemsFrom
    (operations : List Operation)
    (key : Bytes)
    (entry : CacheEntry) : Prop :=
  ∃ document maxLength n,
    .get document (some entry.grammarId) maxLength ∈ operations ∧
      keyOf document = key ∧
        entry.document =
          (TokenizedDocument.create (grammars entry.grammarId)
            document maxLength).extend n

/- All entries stem from operations, and no two have the same key. -/
structure Kept
    (operations : List Operation)
    (cache : ParseCache) : Prop where
  stems :
    ∀ e ∈ cache.entries, StemsFrom grammars operations e.1 e.2
  nodup : (cache.entries.map Prod.fst).Nodup

section

variable {grammars}
variable {operations : List Operation}
variable {cache : ParseCache}
variable {key : Bytes}
variable {entry : CacheEntry}

/- More operations may follow. -/
theorem stemsFrom_append
    (hStems : StemsFrom grammars operations key entry)
    (later : List Operation) :
    StemsFrom grammars (operations ++ later) key entry := by
  rcases hStems with ⟨document, maxLength, n, hGet, hRest⟩
  exact ⟨document, maxLength, n, List.mem_append_left _ hGet, hRest⟩

/- The entry has the name of that document, and the grammar. -/
theorem exists_get_of_stemsFrom
    (hStems : StemsFrom grammars operations key entry) :
    ∃ document maxLength,
      .get document (some entry.grammarId) maxLength ∈ operations ∧
        document.name.key = key ∧
          entry.name = document.name ∧
            entry.document.grammar = grammars entry.grammarId := by
  rcases hStems with
    ⟨document, maxLength, n, hGet, hKey, hTokenized⟩
  rcases
      TokenizedDocument.exists_tokenized_extend n
        (TokenizedDocument.create (grammars entry.grammarId) document
          maxLength) with
    ⟨tokenized, hSame⟩
  refine ⟨document, maxLength, hGet, hKey, ?_, ?_⟩
  · rw [CacheEntry.name, hTokenized, hSame]
    rfl
  · rw [hTokenized, hSame]
    rfl

/- The key of an entry is that of its name. -/
theorem key_of_stemsFrom
    (hStems : StemsFrom grammars operations key entry) :
    entry.name.key = key := by
  rcases exists_get_of_stemsFrom hStems with
    ⟨document, _, _, hKey, hName, _⟩
  rw [hName]
  exact hKey

/- An entry that is found is one of the entries. -/
theorem mem_of_find?
    (hFind : cache.find? key = some entry) :
    (key, entry) ∈ cache.entries := by
  rcases Option.map_eq_some_iff.mp hFind with ⟨e, hFound, hEntry⟩
  have hKey : e.1 = key := by
    simpa using List.find?_some hFound
  rw [← hKey, ← hEntry]
  exact List.mem_of_find?_eq_some hFound

/- Nothing is kept at first. -/
theorem kept_of_entries_eq_nil
    (hEntries : cache.entries = []) :
    Kept grammars operations cache := by
  constructor
  · rw [hEntries]
    exact fun _ hMember => absurd hMember List.not_mem_nil
  · rw [hEntries]
    exact List.nodup_nil

/- More operations may follow. -/
theorem kept_append
    (hKept : Kept grammars operations cache)
    (later : List Operation) :
    Kept grammars (operations ++ later) cache :=
  ⟨fun e hMember => stemsFrom_append (hKept.stems e hMember) later,
    hKept.nodup⟩

/- Entries may be dropped. -/
theorem kept_erase
    (hKept : Kept grammars operations cache)
    (key : Bytes) :
    Kept grammars operations (cache.erase key) := by
  constructor
  · exact fun e hMember => hKept.stems e (List.mem_of_mem_filter hMember)
  · exact hKept.nodup.sublist (List.filter_sublist.map Prod.fst)

/- An entry that stems from operations may be put in. -/
theorem kept_update
    (hKept : Kept grammars operations cache)
    (hStems : StemsFrom grammars operations key entry) :
    Kept grammars operations (cache.update key entry) := by
  have hErased := kept_erase hKept key
  constructor
  · intro e hMember
    rcases List.mem_cons.mp hMember with hSame | hOld
    · rw [hSame]
      exact hStems
    · exact hErased.stems e hOld
  · apply List.nodup_cons.mpr
    refine ⟨?_, hErased.nodup⟩
    intro hMember
    rcases List.mem_map.mp hMember with ⟨e, hOld, hKey⟩
    have hOther : e.1 ≠ key := by
      simpa using (List.mem_filter.mp hOld).2
    exact hOther hKey

/-
  The entry that is got for a document stems from operations,
  this one being the last, and has the version and the grammar
  that were asked for.
-/
theorem exists_getOrCreate_of_kept
    (hKept : Kept grammars operations cache)
    (document : Document)
    (id maxLength : Nat) :
    ∃ entry later,
      cache.getOrCreate document (some (given grammars id))
            maxLength =
          (.ok entry, later) ∧
        entry.document.version = document.version ∧
          entry.grammarId = id ∧
            StemsFrom grammars
                (operations ++ [.get document (some id) maxLength])
                (keyOf document) entry ∧
              Kept grammars
                (operations ++ [.get document (some id) maxLength])
                later := by
  have hLater :=
    kept_append hKept [.get document (some id) maxLength]
  rcases
      cache.exists_getOrCreate document (given grammars id)
        maxLength with
    ⟨entry, later, hGot, hFind, hVersion, hId,
      hCache | ⟨hEntry, hUpdated⟩⟩
  · rw [← hCache] at hLater
    exact
      ⟨entry, later, hGot, hVersion, hId,
        hLater.stems _ (mem_of_find? hFind), hLater⟩
  · have hStems :
        StemsFrom grammars
          (operations ++ [.get document (some id) maxLength])
          (keyOf document) entry := by
      rw [hEntry]
      exact
        ⟨document, maxLength, 0,
          List.mem_append_right _ List.mem_cons_self, rfl, rfl⟩
    have hNew := kept_update hLater hStems
    refine ⟨entry, later, hGot, hVersion, hId, hStems, ?_, ?_⟩
    · rw [hUpdated]
      exact hNew.stems
    · rw [hUpdated]
      exact hNew.nodup

/- Without a grammar no entry is got, and the one there is dropped. -/
theorem getOrCreate_none
    (cache : ParseCache)
    (document : Document)
    (maxLength : Nat) :
    cache.getOrCreate document none maxLength =
      (.error .noGrammar, cache.erase (keyOf document)) := by
  have hNone :
      (cache.find? (keyOf document)).filter (fun entry =>
        serves entry document none) = none := by
    simp [serves]
  rw [getOrCreate, hNone]

/- Tokenizing more lines of an entry keeps what it stems from. -/
theorem kept_tokenize
    (hKept : Kept grammars operations cache)
    (key : Bytes)
    (n : Nat) :
    Kept grammars operations (cache.tokenize key n) := by
  unfold tokenize
  split
  · exact hKept
  · next entry hFind =>
      apply kept_update hKept
      rcases hKept.stems _ (mem_of_find? hFind) with
        ⟨document, maxLength, m, hGet, hKey, hTokenized⟩
      refine ⟨document, maxLength, m + n, hGet, hKey, ?_⟩
      rw [← TokenizedDocument.extend_extend]
      exact congrArg (fun d => d.extend n) hTokenized

/- Every operation keeps this, and adds itself. -/
theorem kept_apply
    (hKept : Kept grammars operations cache)
    (operation : Operation) :
    Kept grammars (operations ++ [operation])
      (apply grammars cache operation) := by
  cases operation with
  | get document grammarId? maxLength =>
      cases grammarId? with
      | none =>
          rw [apply, Option.map_none, getOrCreate_none]
          exact kept_append (kept_erase hKept _) _
      | some id =>
          rcases
              exists_getOrCreate_of_kept hKept document id
                maxLength with
            ⟨entry, later, hGot, _, _, _, hLater⟩
          rw [apply, Option.map_some, hGot]
          exact hLater
  | tokenize key n => exact kept_append (kept_tokenize hKept key n) _
  | remove languageId uri => exact kept_append (kept_erase hKept _) _
  | clear => exact kept_of_entries_eq_nil rfl

/- So do all operations.  The induction is on them. -/
theorem kept_foldl_apply
    (operations : List Operation) :
    ∀ (earlier : List Operation) (cache : ParseCache),
      Kept grammars earlier cache →
        Kept grammars (earlier ++ operations)
          (operations.foldl (apply grammars) cache) := by
  induction operations with
  | nil =>
      intro earlier cache hKept
      rw [List.append_nil]
      exact hKept
  | cons operation operations ih =>
      intro earlier cache hKept
      have hAll := ih _ _ (kept_apply hKept operation)
      rw [List.append_assoc] at hAll
      exact hAll

end

/- After any operations all entries stem from them. -/
theorem kept_after
    (operations : List Operation) :
    Kept grammars operations (after grammars operations) :=
  kept_foldl_apply operations [] empty (kept_of_entries_eq_nil rfl)

------------------------------------------------------------
-- Histories
------------------------------------------------------------

/- The names of all entries differ. -/
theorem nodup_names_of_kept
    {operations : List Operation}
    {cache : ParseCache}
    (hKept : Kept grammars operations cache) :
    (cache.entries.map (fun e => e.2.name)).Nodup := by
  have hKeys :
      (cache.entries.map (fun e => e.2.name)).map
          DocumentName.key =
        cache.entries.map Prod.fst := by
    rw [List.map_map]
    apply List.map_congr_left
    intro e hMember
    exact key_of_stemsFrom (hKept.stems e hMember)
  apply List.Nodup.of_map DocumentName.key
  rw [hKeys]
  exact hKept.nodup

/- Those entries are dropped whose name is the one or meets it. -/
theorem mem_remove_iff_of_kept
    {operations : List Operation}
    {cache : ParseCache}
    {e : Bytes × CacheEntry}
    (hKept : Kept grammars operations cache)
    (name : DocumentName) :
    e ∈ (cache.remove name.languageId name.uri).entries ↔
      e ∈ cache.entries ∧
        e.2.name ≠ name ∧ ¬ e.2.name.Meets name := by
  rw [remove, erase, List.mem_filter]
  apply and_congr_right
  intro hMember
  have hKey : e.2.name.key = e.1 :=
    key_of_stemsFrom (hKept.stems e hMember)
  have hIff :
      e.2.name.key = name.key ↔ e.2.name = name ∨ e.2.name.Meets name :=
    DocumentName.key_eq_iff
  rw [hKey, DocumentName.key] at hIff
  rw [bne_iff_ne, Ne, hIff, not_or]

/-
  The name of the entry that is got is the one that is asked for,
  or one that meets it and was asked for before.
-/
theorem name_of_stemsFrom
    {operations : List Operation}
    {document : Document}
    {id maxLength : Nat}
    {entry : CacheEntry}
    (hStems :
      StemsFrom grammars
        (operations ++ [.get document (some id) maxLength])
        (keyOf document) entry) :
    entry.name = document.name ∨
      entry.name.Meets document.name ∧
        AskedFor operations entry.name := by
  rcases exists_get_of_stemsFrom hStems with
    ⟨other, maxLength, hGet, hKey, hName, _⟩
  have hKeys : other.name.key = document.name.key := hKey
  rw [hName]
  rcases List.mem_append.mp hGet with hBefore | hLast
  · rcases DocumentName.key_eq_iff.mp hKeys with hSame | hMeets
    · exact Or.inl hSame
    · exact Or.inr ⟨hMeets, other, _, maxLength, hBefore, rfl⟩
  · left
    have hSame := List.mem_singleton.mp hLast
    cases hSame
    rfl

/-
  After any operations on a cache: the entry that is got for a
  document has the version and the grammar that are asked for,
  and the name that is asked for or one that meets it and was
  asked for before; just the entries are removed whose name is
  the one given or meets it; and no two entries have the same
  name.
-/
theorem getOrCreate_after
    (operations : List Operation) :
    let cache := after grammars operations
    (∀ (document : Document) (id maxLength : Nat),
        ∃ entry later,
          cache.getOrCreate document (some (given grammars id))
                maxLength =
              (.ok entry, later) ∧
            entry.document.version = document.version ∧
              entry.grammarId = id ∧
                entry.document.grammar = grammars id ∧
                  (entry.name = document.name ∨
                    entry.name.Meets document.name ∧
                      AskedFor operations entry.name)) ∧
      (∀ (name : DocumentName) (e : Bytes × CacheEntry),
          e ∈ (cache.remove name.languageId name.uri).entries ↔
            e ∈ cache.entries ∧
              e.2.name ≠ name ∧ ¬ e.2.name.Meets name) ∧
        (cache.entries.map (fun e => e.2.name)).Nodup := by
  intro cache
  have hKept := kept_after grammars operations
  refine ⟨?_, ?_, nodup_names_of_kept grammars hKept⟩
  · intro document id maxLength
    rcases exists_getOrCreate_of_kept hKept document id maxLength with
      ⟨entry, later, hGot, hVersion, hId, hStems, _⟩
    refine ⟨entry, later, hGot, hVersion, hId, ?_, ?_⟩
    · rcases exists_get_of_stemsFrom hStems with
        ⟨_, _, _, _, _, hGrammar⟩
      rw [hGrammar, hId]
    · exact name_of_stemsFrom grammars hStems
  · intro name e
    exact mem_remove_iff_of_kept grammars hKept name

------------------------------------------------------------
-- Documents That Meet
------------------------------------------------------------

namespace Meeting

/- A document of the language `a-b` at the place `c`. -/
def first : Document :=
  { uri := utf8 "c"
    languageId := utf8 "a-b"
    version := 1
    text := utf8 "one" }

/- A document of the language `a` at the place `b-c`. -/
def second : Document :=
  { uri := utf8 "b-c"
    languageId := utf8 "a"
    version := 1
    text := utf8 "two" }

/- The cache after the entry of the first document was got. -/
def cache (grammar : Grammar) : ParseCache :=
  after (fun _ => grammar) [.get first (some 0) 100]

/-
  The entry that is got for the second document is the one of the
  first, and to remove the second one is to remove the first.
-/
theorem getOrCreate_second :
    let grammar : Grammar := default
    (∃ entry,
        (cache grammar).getOrCreate second
              (some (given (fun _ => grammar) 0)) 100 =
            (.ok entry, cache grammar) ∧
          entry.name = first.name ∧
            entry.document.lines = first.lines.toArray) ∧
      first.name ≠ second.name ∧
        (cache grammar).size = 1 ∧
          ((cache grammar).remove second.languageId
            second.uri).size = 0 := by
  intro grammar
  refine ⟨⟨_, rfl, rfl, rfl⟩, ?_, ?_, ?_⟩
  · decide
  · rfl
  · rfl

end Meeting

end ParseCache

end Marginalia

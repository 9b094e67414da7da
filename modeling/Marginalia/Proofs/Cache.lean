import Marginalia.Cache
import Marginalia.Proofs.Registry.Memory
import Marginalia.Proofs.Token.Lazy

/-
  This file proves that the cache of tokenized documents is not
  seen: as long as every entry stands for a document that is
  open as it is now, an answer is the one that a freshly
  tokenized document gives.

  An entry that serves a document does so by its key, a version
  and the number of a grammar.  What an entry holds is known
  from its key alone, so that a version that comes again does no
  harm.

  Key definitions include:
    * `CacheEntry.Fits`, `CacheEntry.Tokenizes`
    * `ParseCache.Valid`, `ParseCache.Current`
  The main statements are:
    * `ParseCache.exists_getOrCreate`
    * `ParseCache.valid_erase`
    * `ParseCache.answer_of_current`
    * `ParseCache.answer_eq_of_served`
-/

namespace Marginalia

/-
  The entry holds the document, tokenized with a grammar that is
  remembered under its number.
-/
def CacheEntry.Fits
    (registry : Registry)
    (maxLength : Nat)
    (document : Document)
    (entry : CacheEntry) : Prop :=
  ∃ loaded,
    registry.Holds loaded ∧
      loaded.id = entry.grammarId ∧
        ∃ n,
          entry.document =
            (TokenizedDocument.create loaded.grammar document
              maxLength).extend n

/- The entry holds the document, tokenized with this grammar. -/
structure CacheEntry.Tokenizes
    (grammar : LoadedGrammar)
    (maxLength : Nat)
    (document : Document)
    (entry : CacheEntry) : Prop where
  grammarId_eq : entry.grammarId = grammar.id
  exists_extend :
    ∃ n,
      entry.document =
        (TokenizedDocument.create grammar.grammar document
          maxLength).extend n

/- It fits if the grammar is remembered. -/
theorem CacheEntry.fits_of_tokenizes
    {registry : Registry}
    {grammar : LoadedGrammar}
    {maxLength : Nat}
    {document : Document}
    {entry : CacheEntry}
    (hTokenizes : entry.Tokenizes grammar maxLength document)
    (hHolds : registry.Holds grammar) :
    entry.Fits registry maxLength document :=
  ⟨grammar, hHolds, hTokenizes.grammarId_eq.symm,
    hTokenizes.exists_extend⟩

/- It serves the document with this grammar. -/
theorem ParseCache.serves_of_tokenizes
    {grammar : LoadedGrammar}
    {maxLength : Nat}
    {document : Document}
    {entry : CacheEntry}
    (hTokenizes : entry.Tokenizes grammar maxLength document) :
    serves entry document (some grammar) = true := by
  rcases hTokenizes with ⟨hId, n, hDocument⟩
  rcases
      TokenizedDocument.exists_tokenized_extend n
        (TokenizedDocument.create grammar.grammar document
          maxLength) with
    ⟨tokenized, hSame⟩
  rw [serves, hDocument, hSame, Option.any_some, hId]
  simp [TokenizedDocument.create]

/- A registry that remembers more still remembers its grammar. -/
theorem CacheEntry.fits_of_grows
    {registry next : Registry}
    {maxLength : Nat}
    {document : Document}
    {entry : CacheEntry}
    (hFits : entry.Fits registry maxLength document)
    (hGrows : registry.Grows next) :
    entry.Fits next maxLength document := by
  rcases hFits with ⟨loaded, hHolds, hRest⟩
  exact ⟨loaded, hGrows.holds hHolds, hRest⟩

namespace ParseCache

------------------------------------------------------------
-- Finding Entries
------------------------------------------------------------

/- An entry that is dropped is not found, and the others are. -/
theorem find?_erase
    (cache : ParseCache)
    (key other : Bytes) :
    (cache.erase key).find? other =
      if other = key then none else cache.find? other := by
  unfold find? erase
  dsimp only
  rw [List.find?_filter]
  by_cases hSame : other = key
  · rw [if_pos hSame, hSame]
    simp
  · rw [if_neg hSame]
    congr 2
    funext e
    by_cases hKey : e.1 = other
    · simp [hKey, hSame]
    · simp [hKey]

/- What is found after an entry is dropped was found before. -/
theorem find?_of_find?_erase
    {cache : ParseCache}
    {key other : Bytes}
    {entry : CacheEntry}
    (hFind : (cache.erase key).find? other = some entry) :
    cache.find? other = some entry := by
  rw [find?_erase] at hFind
  split at hFind
  · cases hFind
  · exact hFind

/- An entry that is put into the cache is found, and so are the others. -/
theorem find?_update
    (cache : ParseCache)
    (key other : Bytes)
    (entry : CacheEntry) :
    (cache.update key entry).find? other =
      if other = key then some entry else cache.find? other := by
  by_cases hSame : other = key
  · rw [if_pos hSame, hSame]
    simp [find?, update]
  · rw [if_neg hSame]
    have hErased := find?_erase cache key other
    rw [if_neg hSame] at hErased
    rw [← hErased]
    have hDiffer : (key == other) = false := by
      simpa using fun h => hSame h.symm
    simp [find?, update, hDiffer]

------------------------------------------------------------
-- Getting Entries
------------------------------------------------------------

/- The entry that is made for a document. -/
def entryFor
    (cache : ParseCache)
    (document : Document)
    (grammar : LoadedGrammar)
    (maxLength : Nat) : CacheEntry :=
  { id := cache.nextId
    grammarId := grammar.id
    document :=
      TokenizedDocument.create grammar.grammar document maxLength }

/-
  With a grammar an entry is got, and it is in the cache
  afterwards.  It is the one that was there, if it has the
  version and the grammar, or else a new one.
-/
theorem exists_getOrCreate
    (cache : ParseCache)
    (document : Document)
    (grammar : LoadedGrammar)
    (maxLength : Nat) :
    ∃ entry later,
      cache.getOrCreate document (some grammar) maxLength =
          (.ok entry, later) ∧
        later.find? (keyOf document) = some entry ∧
          entry.document.version = document.version ∧
            entry.grammarId = grammar.id ∧
              (later = cache ∨
                entry = cache.entryFor document grammar maxLength ∧
                  later.entries =
                    (cache.update (keyOf document) entry).entries) := by
  unfold getOrCreate
  dsimp only
  cases hKept :
      (cache.find? (keyOf document)).filter (fun entry =>
        serves entry document (some grammar)) with
  | some entry =>
      have hBoth := Option.filter_eq_some_iff.mp hKept
      have hServes :
          entry.document.version = document.version ∧
            grammar.id = entry.grammarId := by
        simpa [serves] using hBoth.2
      exact
        ⟨entry, cache, rfl, hBoth.1, hServes.1, hServes.2.symm,
          Or.inl rfl⟩
  | none =>
      refine
        ⟨cache.entryFor document grammar maxLength, _, rfl, ?_, rfl,
          rfl, Or.inr ⟨rfl, rfl⟩⟩
      have hUpdated :=
        find?_update cache (keyOf document) (keyOf document)
          (cache.entryFor document grammar maxLength)
      rw [if_pos rfl] at hUpdated
      exact hUpdated

/- An entry that is got leaves all others in the cache. -/
theorem find?_getOrCreate_of_ne
    {document : Document}
    {key : Bytes}
    (hOther : key ≠ keyOf document)
    (cache : ParseCache)
    (grammar : LoadedGrammar)
    (maxLength : Nat) :
    (cache.getOrCreate document (some grammar) maxLength).2.find?
        key =
      cache.find? key := by
  rcases cache.exists_getOrCreate document grammar maxLength with
    ⟨entry, later, hGot, _, _, _, hSame | ⟨_, hUpdated⟩⟩
  · rw [hGot, hSame]
  · have hKept := find?_update cache (keyOf document) key entry
    rw [if_neg hOther] at hKept
    rw [hGot, ← hKept, find?, find?, hUpdated]

------------------------------------------------------------
-- Validity
------------------------------------------------------------

/- Every entry holds a document that is open. -/
def Valid
    (isOpen : Document → Prop)
    (registry : Registry)
    (maxLength : Nat)
    (cache : ParseCache) : Prop :=
  ∀ (key : Bytes) (entry : CacheEntry),
    cache.find? key = some entry →
      ∃ document,
        isOpen document ∧
          keyOf document = key ∧
            entry.Fits registry maxLength document

variable {isOpen : Document → Prop}
variable {registry next : Registry}
variable {maxLength : Nat}
variable {cache : ParseCache}

/- Without entries there is nothing to show. -/
theorem valid_of_entries_eq_nil
    (hEntries : cache.entries = []) :
    cache.Valid isOpen registry maxLength := by
  intro key entry hFind
  simp [find?, hEntries] at hFind

/- A registry may remember more. -/
theorem valid_of_grows
    (hValid : cache.Valid isOpen registry maxLength)
    (hGrows : registry.Grows next) :
    cache.Valid isOpen next maxLength := by
  intro key entry hFind
  rcases hValid key entry hFind with ⟨document, hOpen, hKey, hFits⟩
  exact
    ⟨document, hOpen, hKey, CacheEntry.fits_of_grows hFits hGrows⟩

/-
  Documents whose entry is dropped need no longer be open, and
  any others may be opened.
-/
theorem valid_erase
    {stillOpen : Document → Prop}
    {key : Bytes}
    (hValid : cache.Valid isOpen registry maxLength)
    (hOpen :
      ∀ document,
        isOpen document → keyOf document ≠ key → stillOpen document) :
    (cache.erase key).Valid stillOpen registry maxLength := by
  intro other entry hFind
  rw [find?_erase] at hFind
  by_cases hSame : other = key
  · rw [if_pos hSame] at hFind
    cases hFind
  · rw [if_neg hSame] at hFind
    rcases hValid other entry hFind with
      ⟨document, hWasOpen, hKey, hFits⟩
    refine ⟨document, ?_, hKey, hFits⟩
    apply hOpen document hWasOpen
    rw [hKey]
    exact hSame

------------------------------------------------------------
-- Answers
------------------------------------------------------------

/-
  What the cache holds under the key of a document for its
  version is this document.
-/
def Current
    (registry : Registry)
    (maxLength : Nat)
    (document : Document)
    (cache : ParseCache) : Prop :=
  ∀ entry,
    cache.find? (keyOf document) = some entry →
      entry.document.version = document.version →
        entry.Fits registry maxLength document

/- It may be held by a valid cache, if no other is open under its key. -/
theorem current_of_valid
    {document : Document}
    (hValid : cache.Valid isOpen registry maxLength)
    (hKeys :
      ∀ other, isOpen other → keyOf other = keyOf document →
        other = document) :
    cache.Current registry maxLength document := by
  intro entry hFind _
  rcases hValid _ entry hFind with ⟨other, hOther, hKey, hFits⟩
  rw [hKeys other hOther hKey] at hFits
  exact hFits

/- Nothing is held that is not found. -/
theorem current_of_find?_eq_none
    {document : Document}
    (hNone : cache.find? (keyOf document) = none) :
    cache.Current registry maxLength document := by
  intro entry hFind _
  rw [hNone] at hFind
  cases hFind

/- Nothing is held by a cache without entries. -/
theorem current_of_entries_eq_nil
    (hEntries : cache.entries = [])
    (document : Document) :
    cache.Current registry maxLength document := by
  apply current_of_find?_eq_none
  rw [find?, hEntries]
  rfl

/- Nothing is held of a document whose entry is dropped. -/
theorem current_erase
    {key : Bytes}
    {document : Document}
    (hKey : keyOf document = key) :
    (cache.erase key).Current registry maxLength document := by
  apply current_of_find?_eq_none
  rw [find?_erase, if_pos hKey]

/- The cache may lose its entry, and the registry remember more. -/
theorem current_of_kept
    {later : ParseCache}
    {document : Document}
    (hCurrent : cache.Current registry maxLength document)
    (hGrows : registry.Grows next)
    (hKept :
      ∀ entry,
        later.find? (keyOf document) = some entry →
          cache.find? (keyOf document) = some entry) :
    later.Current next maxLength document := by
  intro entry hFind hVersion
  exact
    CacheEntry.fits_of_grows
      (hCurrent entry (hKept entry hFind) hVersion) hGrows

/- Then the entry that is got for the document holds it. -/
theorem getOrCreate_of_current
    {document : Document}
    {grammar : LoadedGrammar}
    (hNumbered : registry.Numbered)
    (hCurrent : cache.Current registry maxLength document)
    (hHolds : registry.Holds grammar) :
    ∃ entry later,
      cache.getOrCreate document (some grammar) maxLength =
          (.ok entry, later) ∧
        (∀ key, key ≠ keyOf document →
            later.find? key = cache.find? key) ∧
          entry.Tokenizes grammar maxLength document := by
  rcases cache.exists_getOrCreate document grammar maxLength with
    ⟨entry, later, hGot, hFind, hVersion, hId, hMade⟩
  have hKept :
      ∀ key, key ≠ keyOf document →
        later.find? key = cache.find? key := by
    intro key hOther
    have hSame := find?_getOrCreate_of_ne hOther cache grammar maxLength
    rwa [hGot] at hSame
  refine ⟨entry, later, hGot, hKept, hId, ?_⟩
  rcases hMade with hCache | ⟨hEntry, _⟩
  · rw [hCache] at hFind
    rcases hCurrent entry hFind hVersion with
      ⟨loaded, hLoaded, hLoadedId, n, hTokenized⟩
    have hGrammar : loaded = grammar :=
      hNumbered.eq_of_id_eq hLoaded hHolds (hLoadedId.trans hId)
    rw [hGrammar] at hTokenized
    exact ⟨n, hTokenized⟩
  · exact ⟨0, by rw [hEntry]; rfl⟩

/-
  An answer is the one that the document gives when it is
  freshly tokenized.  Afterwards the cache holds the document,
  and under all other keys what it held.
-/
theorem answer_of_current
    {α : Type}
    {document : Document}
    {grammar : LoadedGrammar}
    (hNumbered : registry.Numbered)
    (hCurrent : cache.Current registry maxLength document)
    (hHolds : registry.Holds grammar)
    (query : TokenizedDocument → TokenQuery α)
    (hQuery :
      ∀ (d : TokenizedDocument) (n : Nat),
        query (d.extend n) = query d) :
    let fresh :=
      TokenizedDocument.create grammar.grammar document maxLength
    ∃ entry later,
      cache.answer document grammar maxLength query =
          (.ok (TokenizedDocument.answer (query fresh) fresh).1,
            later) ∧
        entry.Tokenizes grammar maxLength document ∧
          ∀ key,
            later.find? key =
              if key = keyOf document then some entry
              else cache.find? key := by
  intro fresh
  rcases getOrCreate_of_current hNumbered hCurrent hHolds with
    ⟨entry, made, hMade, hKept, hId, n, hTokenized⟩
  rcases
      TokenizedDocument.answer_extend_eq_answer
        (TokenizedDocument.fresh_create grammar.grammar document
          maxLength) (query fresh) n with
    ⟨m, hAnswer⟩
  let last : CacheEntry := { entry with document := fresh.extend m }
  refine
    ⟨last, made.update (keyOf document) last, ?_,
      ⟨hId, m, rfl⟩, ?_⟩
  · unfold answer
    rw [hMade]
    dsimp only
    rw [hTokenized, hQuery, hAnswer]
  · intro key
    rw [find?_update]
    by_cases hSame : key = keyOf document
    · rw [if_pos hSame, if_pos hSame]
    · rw [if_neg hSame, if_neg hSame, hKept key hSame]

/- A cache stays valid with an entry of an open document. -/
theorem valid_of_answered
    {later : ParseCache}
    {document : Document}
    {entry : CacheEntry}
    (hValid : cache.Valid isOpen registry maxLength)
    (hOpen : isOpen document)
    (hFits : entry.Fits registry maxLength document)
    (hFind :
      ∀ key,
        later.find? key =
          if key = keyOf document then some entry
          else cache.find? key) :
    later.Valid isOpen registry maxLength := by
  intro key found hFound
  rw [hFind] at hFound
  by_cases hSame : key = keyOf document
  · rw [if_pos hSame] at hFound
    rw [← Option.some.inj hFound]
    exact ⟨document, hOpen, hSame.symm, hFits⟩
  · rw [if_neg hSame] at hFound
    exact hValid key found hFound

/- An answer leaves the entries of all other documents as they are. -/
theorem find?_answer_of_ne
    {α : Type}
    {document : Document}
    {key : Bytes}
    (hOther : key ≠ keyOf document)
    (grammar : LoadedGrammar)
    (maxLength : Nat)
    (query : TokenizedDocument → TokenQuery α) :
    (cache.answer document grammar maxLength query).2.find? key =
      cache.find? key := by
  rcases cache.exists_getOrCreate document grammar maxLength with
    ⟨entry, later, hGot, _⟩
  have hKept : later.find? key = cache.find? key := by
    have hSame := find?_getOrCreate_of_ne hOther cache grammar maxLength
    rwa [hGot] at hSame
  unfold answer
  rw [hGot]
  dsimp only
  rw [find?_update, if_neg hOther, hKept]

/-
  Documents with the same key and the same version are answered
  from the same entry, whatever their lines are.
-/
theorem answer_eq_of_served
    {α : Type}
    {a b : Document}
    {grammar : LoadedGrammar}
    {entry : CacheEntry}
    (hKey : keyOf b = keyOf a)
    (hVersion : b.version = a.version)
    (hFind : cache.find? (keyOf a) = some entry)
    (hServes : serves entry a (some grammar) = true)
    (maxLength : Nat)
    (query : TokenizedDocument → TokenQuery α) :
    cache.answer b grammar maxLength query =
      cache.answer a grammar maxLength query := by
  have hServesToo : serves entry b (some grammar) = true := by
    rw [serves, hVersion]
    exact hServes
  unfold answer getOrCreate
  simp only [hKey, hFind, Option.filter_some, hServes, hServesToo,
    if_true]

end ParseCache

end Marginalia

import Marginalia.Service
import Marginalia.Proofs.Cache
import Marginalia.Proofs.Token.Evaluation

/-
  This file says what a service finds when a comment is looked
  up: what the freshly tokenized document gives, if its cache is
  current for the document.

  Key definitions include:
    * `Service.lookUpAnew`
  The main statements are:
    * `Service.compute_of_current`
    * `Service.compute_of_sameVersion`
    * `Service.compute_of_entries_eq_nil`
-/

namespace Marginalia

namespace Service

/- What is looked up in a document that is tokenized for this. -/
def lookUpAnew
    (service : Service)
    (document : Document)
    (grammar : LoadedGrammar)
    (position : Position) : CommentLookup :=
  let fresh :=
    TokenizedDocument.create grammar.grammar document
      service.maxLength
  (TokenizedDocument.answer
    (CommentLookup.compute fresh.lines service.settings.merge
      position) fresh).1

/-
  This is what a service finds if its cache is current.  Then
  the cache holds the document, and nothing else in it changes.
-/
theorem compute_of_current
    {service : Service}
    {document : Document}
    {grammar : LoadedGrammar}
    (hNumbered : service.registry.Numbered)
    (hCurrent :
      service.cache.Current service.registry service.maxLength
        document)
    (hHolds : service.registry.Holds grammar)
    (position : Position) :
    ∃ entry later,
      service.compute document grammar position =
          (.ok (service.lookUpAnew document grammar position),
            { service with cache := later }) ∧
        entry.Tokenizes grammar service.maxLength document ∧
          ∀ key,
            later.find? key =
              if key = ParseCache.keyOf document then some entry
              else service.cache.find? key := by
  let query : TokenizedDocument → TokenQuery CommentLookup :=
    fun d =>
      CommentLookup.compute d.lines service.settings.merge position
  have hQuery :
      ∀ (d : TokenizedDocument) (n : Nat),
        query (d.extend n) = query d := by
    intro d n
    simp only [query, TokenizedDocument.lines_extend]
  rcases
      ParseCache.answer_of_current hNumbered hCurrent hHolds query
        hQuery with
    ⟨entry, later, hAnswer, hTokenizes, hFind⟩
  refine ⟨entry, later, ?_, hTokenizes, hFind⟩
  unfold compute
  rw [hAnswer]
  rfl

/- A lookup leaves what is held of all other documents. -/
theorem find?_compute_of_ne
    {service : Service}
    {document : Document}
    {key : Bytes}
    (hOther : key ≠ ParseCache.keyOf document)
    (grammar : LoadedGrammar)
    (position : Position) :
    (service.compute document grammar position).2.cache.find? key =
      service.cache.find? key :=
  ParseCache.find?_answer_of_ne hOther grammar service.maxLength
    (fun d =>
      CommentLookup.compute d.lines service.settings.merge position)

/-
  After a lookup in a document, one in a document with the same
  key and the same version finds what the first one holds.
-/
theorem compute_of_sameVersion
    {service : Service}
    {document edited : Document}
    {grammar : LoadedGrammar}
    (hNumbered : service.registry.Numbered)
    (hCurrent :
      service.cache.Current service.registry service.maxLength
        document)
    (hHolds : service.registry.Holds grammar)
    (hKey : ParseCache.keyOf edited = ParseCache.keyOf document)
    (hVersion : edited.version = document.version)
    (first position : Position) :
    let looked := (service.compute document grammar first).2
    (looked.compute edited grammar position).1 =
      .ok (looked.lookUpAnew document grammar position) := by
  intro looked
  rcases compute_of_current hNumbered hCurrent hHolds first with
    ⟨entry, later, hFirst, hTokenizes, hFind⟩
  have hLooked : looked = { service with cache := later } :=
    congrArg Prod.snd hFirst
  have hEntry := hFind (ParseCache.keyOf document)
  rw [if_pos rfl] at hEntry
  have hCurrentThen :
      later.Current service.registry service.maxLength document := by
    intro found hFound _
    rw [hEntry] at hFound
    rw [← Option.some.inj hFound]
    exact CacheEntry.fits_of_tokenizes hTokenizes hHolds
  -- The entry serves the edited document as it does the other one.
  have hServed :
      compute { service with cache := later } edited grammar
          position =
        compute { service with cache := later } document grammar
          position := by
    unfold compute
    rw [ParseCache.answer_eq_of_served hKey hVersion hEntry
      (ParseCache.serves_of_tokenizes hTokenizes)]
  rcases
      @compute_of_current { service with cache := later } document
        grammar hNumbered hCurrentThen hHolds position with
    ⟨_, _, hSecond, _⟩
  rw [hLooked, hServed, hSecond]

/- A lookup can be evaluated within a bound. -/
theorem lookUpAnew_of_extendWithin?
    {service : Service}
    {document : Document}
    {grammar : LoadedGrammar}
    {position : Position}
    {lookup : CommentLookup}
    (steps : Nat)
    (hLookup :
      let fresh :=
        TokenizedDocument.create grammar.grammar document
          service.maxLength
      (fresh.extendWithin? steps fresh.lines.size).map (fun d =>
          (CommentLookup.compute fresh.lines service.settings.merge
            position).eval d.tokensIn) =
        some lookup) :
    service.lookUpAnew document grammar position = lookup := by
  dsimp only at hLookup
  rcases Option.map_eq_some_iff.mp hLookup with ⟨last, hExtend, hEval⟩
  rw [← hEval, lookUpAnew]
  exact
    TokenizedDocument.answer_of_extendWithin?
      (TokenizedDocument.fresh_create _ _ _) hExtend _ 0

/- A service that holds no document tokenizes it for the lookup. -/
theorem compute_of_entries_eq_nil
    {service : Service}
    (hEntries : service.cache.entries = [])
    (document : Document)
    (grammar : LoadedGrammar)
    (position : Position) :
    ∃ later,
      service.compute document grammar position =
        (.ok (service.lookUpAnew document grammar position),
          later) := by
  have hNone :
      service.cache.find? (ParseCache.keyOf document) = none := by
    simp [ParseCache.find?, hEntries]
  unfold compute ParseCache.answer ParseCache.getOrCreate
  dsimp only
  rw [hNone]
  exact ⟨_, rfl⟩

/- So its lookups can be evaluated too. -/
theorem compute_of_extendWithin?
    {service : Service}
    {document : Document}
    {grammar : LoadedGrammar}
    {position : Position}
    {lookup : CommentLookup}
    (steps : Nat)
    (hEntries : service.cache.entries = [])
    (hLookup :
      let fresh :=
        TokenizedDocument.create grammar.grammar document
          service.maxLength
      (fresh.extendWithin? steps fresh.lines.size).map (fun d =>
          (CommentLookup.compute fresh.lines service.settings.merge
            position).eval d.tokensIn) =
        some lookup) :
    ∃ later,
      service.compute document grammar position =
        (.ok lookup, later) := by
  rw [← lookUpAnew_of_extendWithin? steps hLookup]
  exact compute_of_entries_eq_nil hEntries document grammar position

end Service

end Marginalia

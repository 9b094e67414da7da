import Marginalia.Registry.Basic
import Marginalia.Token.Document

/-
  This file defines the cache of tokenized documents.  An entry
  is found by the language and the place of its document, and
  used again only for the same version and the same grammar.

  Key definitions include:
    * `CacheEntry`
    * `ParseCache`
    * `ParseCache.key`
    * `ParseCache.getOrCreate`, `ParseCache.update`
    * `ParseCache.remove`, `ParseCache.clear`
    * `ParseCache.answer`
-/

namespace Marginalia

/- A tokenized document, its own number, and that of its grammar. -/
structure CacheEntry where
  id : Nat
  grammarId : Nat
  document : TokenizedDocument
deriving Inhabited

/- The entries by key, and the number of the next entry. -/
structure ParseCache where
  entries : List (Bytes × CacheEntry)
  nextId : Nat
deriving Inhabited

namespace ParseCache

/- A cache without entries. -/
def empty : ParseCache :=
  ⟨[], 0⟩

/- The key of a document: its language and its place with a dash between. -/
def key (languageId uri : Bytes) : Bytes :=
  languageId ++ Ascii.minus :: uri

/- The key of a document. -/
def keyOf (document : Document) : Bytes :=
  key document.languageId document.uri

/- The number of entries. -/
def size (cache : ParseCache) : Nat :=
  cache.entries.length

/- The entry of a key. -/
def find? (cache : ParseCache) (key : Bytes) : Option CacheEntry :=
  (cache.entries.find? (fun e => e.1 == key)).map Prod.snd

/- Drop the entry of a key. -/
def erase (cache : ParseCache) (key : Bytes) : ParseCache :=
  { cache with entries := cache.entries.filter (fun e => e.1 != key) }

/- Drop the entry of a document. -/
def remove (cache : ParseCache) (languageId uri : Bytes) : ParseCache :=
  cache.erase (key languageId uri)

/- Drop all entries. -/
def clear (cache : ParseCache) : ParseCache :=
  { cache with entries := [] }

/- Put an entry under a key in place of the one there. -/
def update
    (cache : ParseCache)
    (key : Bytes)
    (entry : CacheEntry) : ParseCache :=
  { cache with entries := (key, entry) :: (cache.erase key).entries }

/- An entry serves a document with a grammar. -/
def serves
    (entry : CacheEntry)
    (document : Document)
    (grammar? : Option LoadedGrammar) : Bool :=
  entry.document.version == document.version &&
    grammar?.any (fun g => g.id == entry.grammarId)

/-
  The entry of a document: the one in the cache if it serves,
  else a new one in its place.
-/
def getOrCreate
    (cache : ParseCache)
    (document : Document)
    (grammar? : Option LoadedGrammar)
    (maxLength : Nat) : Except TokenizeError CacheEntry × ParseCache :=
  let key := keyOf document
  let kept := (cache.find? key).filter (fun entry =>
    serves entry document grammar?)
  match kept with
  | some entry => (.ok entry, cache)
  | none =>
      match grammar? with
      | none => (.error .noGrammar, cache.erase key)
      | some loaded =>
          let entry : CacheEntry :=
            { id := cache.nextId
              grammarId := loaded.id
              document :=
                TokenizedDocument.create loaded.grammar document
                  maxLength }
          (.ok entry,
            { (cache.update key entry) with nextId := cache.nextId + 1 })

/-
  The answer to a question about the entry of a document.  What
  was tokenized for the answer stays in the cache.
-/
def answer
    {α : Type}
    (cache : ParseCache)
    (document : Document)
    (grammar : LoadedGrammar)
    (maxLength : Nat)
    (query : TokenizedDocument → TokenQuery α) :
    Except TokenizeError α × ParseCache :=
  match cache.getOrCreate document (some grammar) maxLength with
  | (.error e, cache) => (.error e, cache)
  | (.ok entry, cache) =>
      let (value, tokenized) :=
        TokenizedDocument.answer (query entry.document) entry.document
      (.ok value,
        cache.update (keyOf document) { entry with document := tokenized })

end ParseCache

end Marginalia

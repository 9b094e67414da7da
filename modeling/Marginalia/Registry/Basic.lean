import Marginalia.Grammar.Table
import Marginalia.Registry.Descriptor

/-
  This file defines the registry of grammars: it loads the
  grammar of a language when it is first asked for, and answers
  from memory afterwards.

  Languages are compared without regard to case.  Languages that
  share a file share its grammar, and a grammar that could not
  be loaded is not tried again.  Only a load that fails because
  of the numbering of groups is not remembered.

  Key definitions include:
    * `LoadedGrammar`
    * `Registry`
    * `Registry.descriptor?`, `Registry.supports`
    * `Registry.loadFile`
    * `Registry.grammarFor`
-/

namespace Marginalia

/- A grammar with a number of its own: two loads differ in it. -/
structure LoadedGrammar where
  id : Nat
  grammar : Grammar
deriving Inhabited

/-
  The engine that grammars are compiled with, the descriptors,
  the languages that are refused, and what was loaded so far by
  path and by language.
-/
structure Registry where
  engine : BoundedEngine
  descriptors : List Descriptor
  excluded : List Bytes
  byPath : List (Bytes × Option LoadedGrammar)
  byLanguage : List (Bytes × Option LoadedGrammar)
  nextId : Nat
deriving Inhabited

namespace Registry

/- The languages that are refused unless told otherwise. -/
def defaultExcluded : List Bytes :=
  [utf8 "log"]

/- A registry that has loaded nothing. -/
def create
    (engine : BoundedEngine)
    (descriptors : List Descriptor)
    (excluded : List Bytes) : Registry :=
  { engine := engine
    descriptors := descriptors
    excluded := excluded.map Bytes.lower
    byPath := []
    byLanguage := []
    nextId := 0 }

/- What is remembered of a key. -/
def remembered?
    (key : Bytes)
    (memory : List (Bytes × Option LoadedGrammar)) :
    Option (Option LoadedGrammar) :=
  (memory.find? (fun e => e.1 == key)).map Prod.snd

/- The first descriptor that covers a language, unless it is refused. -/
def descriptor?
    (registry : Registry)
    (language : Bytes) : Option Descriptor :=
  let key := language.lower
  if key.isEmpty || registry.excluded.contains key then none
  else
    registry.descriptors.find? (fun d =>
      d.languages.any (fun name => name.lower == key))

/- There is a descriptor for the language. -/
def supports (registry : Registry) (language : Bytes) : Bool :=
  (registry.descriptor? language).isSome

/- The grammar that a file holds, if it holds one. -/
def loadFile
    (engine : BoundedEngine)
    (files : Files)
    (path : Bytes) :
    Except TableError (Option Grammar) × List Diagnostic :=
  match files (Path.fileName path) with
  | none => (.ok none, [.unreadableGrammar path])
  | some content =>
      match Json.parse? content with
      | none => (.ok none, [.malformedGrammar path])
      | some value => Grammar.ofJson engine value

/- The remark on a grammar whose scope name is not the expected one. -/
def mismatch (expected : Bytes) : Option Grammar → List Diagnostic
| none => []
| some grammar =>
    if expected.isEmpty || grammar.scopeName == expected then []
    else [.scopeMismatch expected grammar.scopeName]

/- Remember what became of a language. -/
def rememberLanguage
    (registry : Registry)
    (key : Bytes)
    (result : Option LoadedGrammar) : Registry :=
  { registry with byLanguage := (key, result) :: registry.byLanguage }

/- Number a grammar and remember it by its path. -/
def rememberPath
    (registry : Registry)
    (path : Bytes)
    (grammar? : Option Grammar) : Option LoadedGrammar × Registry :=
  let loaded := grammar?.map (fun g => ⟨registry.nextId, g⟩)
  (loaded,
    { registry with
      byPath := (path, loaded) :: registry.byPath
      nextId := registry.nextId + 1 })

/-
  The grammar of a language, the registry that remembers it, and
  the remarks made on the way.
-/
def grammarFor
    (files : Files)
    (registry : Registry)
    (language : Bytes) :
    Except TableError (Option LoadedGrammar) × Registry ×
      List Diagnostic :=
  let key := language.lower
  match remembered? key registry.byLanguage with
  | some result => (.ok result, registry, [])
  | none =>
      match registry.descriptor? language with
      | none => (.ok none, registry.rememberLanguage key none, [])
      | some d =>
          match remembered? d.path registry.byPath with
          | some result =>
              (.ok result, registry.rememberLanguage key result, [])
          | none =>
              match loadFile registry.engine files d.path with
              | (.error e, remarks) =>
                  (.error e, registry, .loading language d.path :: remarks)
              | (.ok grammar?, remarks) =>
                  let (result, registry) :=
                    registry.rememberPath d.path grammar?
                  (.ok result, registry.rememberLanguage key result,
                    .loading language d.path ::
                      remarks ++ mismatch d.scopeName grammar?)

end Registry

end Marginalia

import Marginalia.Diagnostic
import Marginalia.Json.Reader
import Marginalia.Text.Path

/-
  This file defines the lists that say which grammar file serves
  which languages.

  Key definitions include:
    * `Files`
    * `Descriptor`
    * `Descriptor.ofJson?`, `Descriptor.listOfJson`
    * `Descriptor.load?`
-/

namespace Marginalia

/- What the files hold: the content of a path, if it can be read. -/
abbrev Files :=
  Bytes → Option Bytes

/- A grammar file, the scope name it is expected to have, and its languages. -/
structure Descriptor where
  languages : List Bytes
  scopeName : Bytes
  path : Bytes
deriving DecidableEq, Repr

namespace Descriptor

/-
  The languages of an entry: a list under `languages`, of which
  only the texts count, or one text under `language`.
-/
def languagesOf (entry : Json) : List Bytes :=
  match entry.array? "languages" with
  | some items => items.filterMap Json.asText?
  | none => (entry.text? "language").toList

/-
  The descriptor of an entry, if it has a path and a language.
  A relative path starts from `base`, if there is one.
-/
def ofJson? (base : Bytes) (entry : Json) : Option Descriptor :=
  match entry.text? "path" with
  | none => none
  | some path =>
      let languages := languagesOf entry
      if languages.isEmpty then none
      else
        some
          { languages := languages
            scopeName := (entry.text? "scopeName").getD []
            path := Path.resolve base path }

/- The descriptors of a list; anything but a list has none. -/
def listOfJson (base : Bytes) : Json → List Descriptor
| .array entries => entries.filterMap (ofJson? base)
| _ => []

/-
  The descriptors of a file, whose directory is where relative
  paths start.  A file that cannot be read has none, nor has one
  that is not JSON; of a file with a number that is too large
  there is no result.
-/
def load?
    (files : Files)
    (path : Bytes) : Option (List Descriptor × List Diagnostic) :=
  match files (Path.fileName path) with
  | none => some ([], [.unreadableDescriptors path])
  | some content =>
      match Json.parse content with
      | .ok value => some (listOfJson (Path.parent path) value, [])
      | .error .malformed => some ([], [.malformedDescriptors path])
      | .error .overflow => none

end Descriptor

end Marginalia

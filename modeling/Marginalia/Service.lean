import Marginalia.Cache
import Marginalia.Comment.Lookup
import Marginalia.Language

/-
  This file defines the service that answers where comments are:
  it finds the grammar of a document, keeps tokenized documents
  at hand, and knows how the user wants comments to be merged.

  Key definitions include:
    * `Settings`, `SettingsUpdate`
    * `Service`
    * `Service.grammarFor`
    * `Service.compute`
    * `Service.getComment`
    * `Service.setSettings`, `Service.setMaxLength`
-/

namespace Marginalia

------------------------------------------------------------
-- Settings
------------------------------------------------------------

/- How comments are merged, and the language of the glosses. -/
structure Settings where
  merge : MergeSettings
  target : Bytes
deriving DecidableEq, Repr

namespace Settings

/- The settings unless told otherwise. -/
def default : Settings :=
  { merge := { multiLine := false, indentation := .strict }
    target := Language.defaultCode }

end Settings

/- A change of settings; what is absent stays as it is. -/
structure SettingsUpdate where
  multiLine : Option Bool
  target : Option Bytes
  indentation : Option Indentation
deriving DecidableEq, Repr

namespace SettingsUpdate

/-
  The settings after a change.  An empty target is no target,
  and an unknown one stands for the default.
-/
def apply (update : SettingsUpdate) (settings : Settings) : Settings :=
  { merge :=
      { multiLine := update.multiLine.getD settings.merge.multiLine
        indentation :=
          update.indentation.getD settings.merge.indentation }
    target :=
      match update.target.filter (fun text => !text.isEmpty) with
      | none => settings.target
      | some text => Language.resolve text Language.defaultCode }

end SettingsUpdate

------------------------------------------------------------
-- The Service
------------------------------------------------------------

/- The state of the service. -/
structure Service where
  registry : Registry
  cache : ParseCache
  settings : Settings
  maxLength : Nat

namespace Service

/- A service that has answered nothing. -/
def create (registry : Registry) (settings : Settings) : Service :=
  { registry := registry
    cache := ParseCache.empty
    settings := settings
    maxLength := defaultMaxLength }

/- The grammar of a language. -/
def grammarFor
    (files : Files)
    (service : Service)
    (language : Bytes) :
    Except TableError (Option LoadedGrammar) × Service ×
      List Diagnostic :=
  let (result, registry, remarks) :=
    service.registry.grammarFor files language
  (result, { service with registry := registry }, remarks)

/- Look up the comment at a position of a document with a grammar. -/
def compute
    (service : Service)
    (document : Document)
    (grammar : LoadedGrammar)
    (position : Position) :
    Except TokenizeError CommentLookup × Service :=
  let (result, cache) :=
    service.cache.answer document grammar service.maxLength
      (fun d =>
        CommentLookup.compute d.lines service.settings.merge position)
  (result, { service with cache := cache })

/- The comment that a selection stands for, if it holds any text. -/
def ofSelection? (selection : Option CommentBlock) : Option CommentBlock :=
  match selection with
  | none => none
  | some block =>
      if block.comment.isEmpty then none
      else some { block with humanize := false }

/- The remark on a lookup. -/
def remark
    (document : Document)
    (position : Position)
    (lookup : CommentLookup) : Diagnostic :=
  .lookedUp document.uri position.line position.character lookup.code

/- Why a comment cannot be looked up. -/
inductive Error where
| table (error : TableError)
| tokenize (error : TokenizeError)
deriving DecidableEq, Repr

/-
  The comment at a position.  A selection, given where a client
  can be asked for it, counts before what the document says; it
  is asked for only if the language has a grammar.  The result
  also says whether it was asked for.
-/
def getComment
    (files : Files)
    (service : Service)
    (document : Document)
    (position : Position)
    (selection? : Option (Option CommentBlock)) :
    Except Error (CommentLookup × Bool) × Service :=
  match service.grammarFor files document.languageId with
  | (.error e, service, _) => (.error (.table e), service)
  | (.ok none, service, _) => (.ok (.noGrammar, false), service)
  | (.ok (some grammar), service, _) =>
      match ofSelection? selection?.join with
      | some block => (.ok (.found block, selection?.isSome), service)
      | none =>
          match service.compute document grammar position with
          | (.ok lookup, service) =>
              (.ok (lookup, selection?.isSome), service)
          | (.error e, service) => (.error (.tokenize e), service)

/- Forget what is known of a document. -/
def removeDocument
    (service : Service)
    (languageId uri : Bytes) : Service :=
  { service with cache := service.cache.remove languageId uri }

/- Change the settings. -/
def setSettings (service : Service) (update : SettingsUpdate) : Service :=
  { service with settings := update.apply service.settings }

/-
  Change the length beyond which lines are not cut.  All that
  was tokenized before is forgotten.
-/
def setMaxLength (service : Service) (maxLength : Nat) : Service :=
  { service with
    maxLength := maxLength
    cache := service.cache.clear }

end Service

end Marginalia

import Marginalia.Server.Fields
import Marginalia.Server.State

/-
  This file handles the messages by which a client sets the
  server up: the first request, with its options, and changes of
  the configuration.

  Key definitions include:
    * `SetupOptions.settings`, `SetupOptions.descriptors`
    * `Handler.setUp`
    * `Handler.configure`
-/

namespace Marginalia

------------------------------------------------------------
-- Options
------------------------------------------------------------

namespace SetupOptions

/- The grammars that the options name, or the ones to start from. -/
def descriptors
    (options : Json)
    (fallback : List Descriptor) : List Descriptor :=
  match options.array? "grammars" with
  | none => fallback
  | some entries =>
      Descriptor.listOfJson
        ((options.text? "grammarBaseDir").getD []) (.array entries)

/- The languages that the options refuse. -/
def excluded (options : Json) : List Bytes :=
  match options.array? "excludedLanguages" with
  | none => Registry.defaultExcluded
  | some items => items.filterMap Json.asText?

/- The policy that the options name, or a default. -/
def indentation (options : Json) (fallback : Indentation) : Indentation :=
  match options.text? "mergeIndentation" with
  | none => fallback
  | some text => Indentation.ofText text fallback

/-
  The language of the glosses: the preferred one, or else the
  one in which the editor speaks.
-/
def target (options : Json) : Bytes :=
  let preferred :=
    (options.text? "preferredLanguage").filter (fun t => !t.isEmpty)
  match preferred, options.text? "userLanguage" with
  | some text, _ => Language.resolve text Language.defaultCode
  | none, some text => Language.resolve text Language.defaultCode
  | none, none => Language.defaultCode

/- The settings that the options ask for. -/
def settings (options : Json) : Settings :=
  { merge :=
      { multiLine := (options.bool? "multiLineMerge").getD false
        indentation := indentation options .strict }
    target := target options }

/- The length limit that a member sets. -/
def maxLength? (options : Json) : Option Nat :=
  (options.get? "maxTokenizationLineLength").bind Json.lineLength?

/- The service that the options ask for. -/
def service
    (engine : BoundedEngine)
    (options : Json)
    (defaults : List Descriptor) : Service :=
  let fresh :=
    Service.create
      (Registry.create engine (descriptors options defaults)
        (excluded options))
      (settings options)
  match maxLength? options with
  | none => fresh
  | some length => fresh.setMaxLength length

end SetupOptions

------------------------------------------------------------
-- Handlers
------------------------------------------------------------

namespace Handler

/- What the server can do. -/
def capabilities : Json :=
  Json.record
    [ ("capabilities",
        Json.record
          [ ("textDocumentSync",
              Json.record
                [("openClose", .bool true), ("change", .int 2)]),
            ("hoverProvider", .bool true) ]),
      ("serverInfo",
        Json.record [("name", Json.ofString "honyaku-lsp")]) ]

/-
  The first request: the server starts afresh with the options
  of the client.  What the client can be asked stays as it was
  unless the options say otherwise.
-/
def setUp (recipient : Recipient) (params : Json) : Handler Unit := do
  let options := (params.object? "initializationOptions").getD .null
  update (fun s =>
    { s with
      service :=
        SetupOptions.service s.service.registry.engine options
          s.defaults
      asksSelection :=
        (options.bool? "selectionContains").getD s.asksSelection
      asksGloss :=
        (options.bool? "translate").getD s.asksGloss })
  let service := (← server).service
  remark
    (.ready service.registry.descriptors.length
      service.settings.target service.settings.merge.multiLine)
  answer recipient capabilities

/- The change of settings that some values ask for. -/
def updateOf (values : Json) (settings : Settings) : SettingsUpdate :=
  { multiLine := values.bool? "multiLineMerge"
    target := values.text? "preferredLanguage"
    indentation :=
      (values.text? "mergeIndentation").map (fun text =>
        Indentation.ofText text settings.merge.indentation) }

/- Change the settings, and the length limit if there is a new one. -/
def applySettings (values : Json) (service : Service) : Service :=
  let service :=
    service.setSettings (updateOf values service.settings)
  match SetupOptions.maxLength? values with
  | none => service
  | some length => service.setMaxLength length

/- The configuration was changed. -/
def configure (params : Json) : Handler Unit :=
  match
    (params.object? "settings").bind (fun s => s.object? "honyaku")
  with
  | none => pure ()
  | some values =>
      update (fun s =>
        { s with service := applySettings values s.service })

end Handler

end Marginalia

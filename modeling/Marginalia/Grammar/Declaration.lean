import Marginalia.Grammar.Rule
import Marginalia.Json.Basic
import Marginalia.Text.Decimal

/-
  This file defines how a grammar is written down, before its
  rules are numbered, and how such a text is read from JSON.

  Key definitions include:
    * `Reference`
    * `Declaration.Header`
    * `Declaration`
    * `Declaration.ofJson`
    * `GrammarDeclaration`, `GrammarDeclaration.ofJson?`
-/

namespace Marginalia

------------------------------------------------------------
-- Declarations
------------------------------------------------------------

/- What an `include` names: the grammar itself, an entry, or another grammar. -/
inductive Reference where
| whole
| entry (name : Bytes)
| foreign (name : Bytes)
deriving DecidableEq, Repr

namespace Reference

/- The reference that a text denotes. -/
def ofText : Bytes → Reference
| Ascii.hash :: name => .entry name
| text =>
    if text = utf8 "$self" ∨ text = utf8 "$base" then .whole
    else .foreign text

end Reference

namespace Declaration

/- What a rule does, with its patterns as sources. -/
inductive Kind where
| single (source : Bytes) (captures : CaptureNames)
| region
    (openSource : Bytes)
    (captures : CaptureNames)
    (endSource : Bytes)
    (endCaptures : CaptureNames)
    (endLast : Bool)
| container
deriving Repr, Inhabited, DecidableEq

/- The parts of a rule other than the rules inside it. -/
structure Header where
  name : Bytes
  contentName : Bytes
  kind : Kind
deriving Repr, Inhabited, DecidableEq

end Declaration

/-
  An entry of a list of rules.  An entry that is no rule at all
  is `invalid`; a region without an end is `endless`; a rule
  that numbers a group beyond 64 bits is `unnumbered`.
-/
inductive Declaration where
| reference (target : Reference)
| rule (header : Declaration.Header) (children : List Declaration)
| endless (openSource : Bytes)
| unnumbered
| invalid
deriving Repr, Inhabited

------------------------------------------------------------
-- Captures
------------------------------------------------------------

namespace CaptureNames

/- Name a group, in the order of the numbers; a later name counts. -/
def insert (number : Nat) (name : Bytes) : CaptureNames → CaptureNames
| [] => [(number, name)]
| (n, s) :: rest =>
    if number < n then (number, name) :: (n, s) :: rest
    else if number = n then (number, name) :: rest
    else (n, s) :: insert number name rest

/-
  Read the names of groups from the members of an object.  Other
  members are passed over; a number beyond 64 bits is an error.
-/
def ofMembers? :
    CaptureNames → List (Bytes × Json) → Option CaptureNames
| names, [] => some names
| names, (key, value) :: rest =>
    match Decimal.isNumeral key, value.text? "name" with
    | true, some name =>
        if Decimal.value key < Word.size64 then
          ofMembers? (insert (Decimal.value key) name names) rest
        else none
    | _, _ => ofMembers? names rest

/- The names of groups; anything but an object names none. -/
def ofJson? : Json → Option CaptureNames
| .object members => ofMembers? [] members
| _ => some []

/- The names of groups of a member, or a default if it is absent. -/
def ofMember?
    (value : Json)
    (key : String)
    (fallback : CaptureNames) : Option CaptureNames :=
  match value.get? key with
  | none => some fallback
  | some v => ofJson? v

end CaptureNames

------------------------------------------------------------
-- Reading Declarations
------------------------------------------------------------

namespace Declaration

/- A flag is on if it is true or a number other than zero. -/
def isOn : Json → Bool
| .bool b => b
| .int n => Word.signed32 n != 0
| _ => false

/- The region that begins with a source. -/
def regionOfJson
    (value : Json)
    (openSource : Bytes)
    (children : List Declaration) : Declaration :=
  match value.text? "end" with
  | none => .endless openSource
  | some endSource =>
      let names : Option (CaptureNames × CaptureNames) := do
        let both ← CaptureNames.ofMember? value "captures" []
        let opening ←
          CaptureNames.ofMember? value "beginCaptures" both
        let closing ← CaptureNames.ofMember? value "endCaptures" both
        some (opening, closing)
      match names with
      | none => .unnumbered
      | some (opening, closing) =>
          .rule
            { name := (value.text? "name").getD []
              contentName := (value.text? "contentName").getD []
              kind :=
                .region openSource opening endSource closing
                  ((value.get? "applyEndPatternLast").any isOn) }
            children

/-
  The declaration of a value whose members are known, with the
  declarations found below it.  A reference comes first, then a
  match, then a region, then a bare list of rules.
-/
def ofParts (value : Json) (children : List Declaration) : Declaration :=
  match value.text? "include", value.text? "match",
      value.text? "begin" with
  | some text, _, _ => .reference (Reference.ofText text)
  | none, some source, _ =>
      match CaptureNames.ofMember? value "captures" [] with
      | none => .unnumbered
      | some captures =>
          .rule
            { name := (value.text? "name").getD []
              contentName := (value.text? "contentName").getD []
              kind := .single source captures }
            children
  | none, none, some source => regionOfJson value source children
  | none, none, none =>
      match value.get? "patterns" with
      | none => .invalid
      | some _ =>
          .rule
            { name := (value.text? "name").getD []
              contentName := (value.text? "contentName").getD []
              kind := .container }
            children

mutual

/- The declaration that a value denotes. -/
def ofJson : Json → Declaration
| .object members => ofParts (.object members) (patternsOf members)
| _ => .invalid

/- The declarations in the list of rules of an object. -/
def patternsOf : List (Bytes × Json) → List Declaration
| [] => []
| (key, value) :: rest =>
    if key = utf8 "patterns" then itemsOf value else patternsOf rest

/- The declarations in a list of rules; anything but a list holds none. -/
def itemsOf : Json → List Declaration
| .array items => ofItems items
| _ => []

/- The declarations that some values denote. -/
def ofItems : List Json → List Declaration
| [] => []
| item :: items => ofJson item :: ofItems items

end

end Declaration

------------------------------------------------------------
-- Grammars
------------------------------------------------------------

/- A grammar as it is written: the rules of the root, and the named entries. -/
structure GrammarDeclaration where
  scopeName : Bytes
  patterns : List Declaration
  repository : List (Bytes × Declaration)
deriving Repr, Inhabited

namespace GrammarDeclaration

/- The declaration of a named entry. -/
def entry? (d : GrammarDeclaration) (name : Bytes) : Option Declaration :=
  (d.repository.find? (fun e => e.1 == name)).map Prod.snd

/- The entries of a repository; anything but an object has none. -/
def entriesOf : Json → List (Bytes × Declaration)
| .object members =>
    members.map (fun m => (m.1, Declaration.ofJson m.2))
| _ => []

/- The grammar that a value denotes: an object with a text `scopeName`. -/
def ofJson? (value : Json) : Option GrammarDeclaration :=
  match value, value.text? "scopeName" with
  | .object members, some scopeName =>
      some
        { scopeName := scopeName
          patterns := Declaration.patternsOf members
          repository :=
            ((value.get? "repository").map entriesOf).getD [] }
  | _, _ => none

end GrammarDeclaration

end Marginalia

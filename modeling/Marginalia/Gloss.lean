import Marginalia.Json.Basic

/-
  This file defines how the gloss of a comment is asked for, and
  how the answer is read.  A gloss is the text of a comment in
  the language of its reader.

  Key definitions include:
    * `Request`
    * `Gloss.request?`
    * `Gloss.ofResult?`
    * `Gloss.fetch`
-/

namespace Marginalia

/- What a client is asked: a method and its parameters. -/
structure Request where
  method : Bytes
  params : Json
deriving Repr, Inhabited

namespace Gloss

/- The method that asks for a gloss. -/
def method : Bytes :=
  utf8 "honyaku/translate"

/- The question for a gloss; an empty text needs none. -/
def request? (text target : Bytes) : Option Request :=
  if text.isEmpty then none
  else
    some
      { method := method
        params :=
          Json.record [("text", .text text), ("to", .text target)] }

/- The gloss in a result: a text, or an object with a `text`. -/
def ofResult? : Json → Option Bytes
| .text s => some s
| result => result.text? "text"

/-
  Ask for a gloss, if there is anybody to ask.  The result is
  the gloss, and the questions that were sent.
-/
def fetch
    (ask? : Option (Request → Option Json))
    (text target : Bytes) : Option Bytes × List Request :=
  match ask?, request? text target with
  | some ask, some request =>
      ((ask request).bind ofResult?, [request])
  | _, _ => (none, [])

end Gloss

end Marginalia

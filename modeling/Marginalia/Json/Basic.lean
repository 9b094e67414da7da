import Marginalia.Json.Numeral

/-
  This file defines JSON values and how their parts are read.

  The members of an object are kept in the order of their keys,
  byte by byte, so that two objects with the same members are
  the same value.

  Key definitions include:
    * `Json`
    * `Json.Members.insert`, `Json.ofMembers`, `Json.record`
    * `Json.get?`, `Json.text?`
    * `JsonError`, `Json.member`, `Json.asText`, `Json.asWord`
-/

namespace Marginalia

------------------------------------------------------------
-- Values
------------------------------------------------------------

/-
  A JSON value.  A number is an integer if it is written without
  a fraction and an exponent and fits into 64 bits; any other
  number is a floating point number, kept as it was written.
-/
inductive Json where
| null
| bool (value : Bool)
| int (value : Int)
| fractional (numeral : Numeral)
| text (value : Bytes)
| array (items : List Json)
| object (members : List (Bytes × Json))
deriving Inhabited, Repr

namespace Json

/- The order of keys. -/
def keyBefore : Bytes → Bytes → Bool
| _, [] => false
| [], _ :: _ => true
| a :: s, b :: t => a < b || (a == b && keyBefore s t)

namespace Members

/- Put a member in its place; a member with the same key gives way. -/
def insert
    (key : Bytes)
    (value : Json) :
    List (Bytes × Json) → List (Bytes × Json)
| [] => [(key, value)]
| (k, v) :: rest =>
    if key = k then (key, value) :: rest
    else if keyBefore key k then (key, value) :: (k, v) :: rest
    else (k, v) :: insert key value rest

/- The value of a key. -/
def find? (key : Bytes) : List (Bytes × Json) → Option Json
| [] => none
| (k, v) :: rest => if k = key then some v else find? key rest

end Members

/- The object with these members; of two with one key the later counts. -/
def ofMembers (members : List (Bytes × Json)) : Json :=
  .object
    (members.foldl (fun ms m => Members.insert m.1 m.2 ms) [])

/- The object with these members. -/
def record (members : List (String × Json)) : Json :=
  ofMembers (members.map (fun m => (utf8 m.1, m.2)))

/- The text of a string. -/
def ofString (s : String) : Json :=
  .text (utf8 s)

------------------------------------------------------------
-- Optional Parts
------------------------------------------------------------

/- The member of an object, if there is one. -/
def get? (value : Json) (key : String) : Option Json :=
  match value with
  | .object members => Members.find? (utf8 key) members
  | _ => none

/- The text of a string value. -/
def asText? : Json → Option Bytes
| .text s => some s
| _ => none

/- The truth value of a boolean. -/
def asBool? : Json → Option Bool
| .bool b => some b
| _ => none

/- The elements of an array. -/
def asArray? : Json → Option (List Json)
| .array items => some items
| _ => none

/- The number of an integer. -/
def asInt? : Json → Option Int
| .int n => some n
| _ => none

/- The value is an object. -/
def isObject : Json → Bool
| .object _ => true
| _ => false

/- The text of a member, if it is a string. -/
def text? (value : Json) (key : String) : Option Bytes :=
  (value.get? key).bind asText?

/- The truth value of a member, if it is a boolean. -/
def bool? (value : Json) (key : String) : Option Bool :=
  (value.get? key).bind asBool?

/- The elements of a member, if it is an array. -/
def array? (value : Json) (key : String) : Option (List Json) :=
  (value.get? key).bind asArray?

/- A member that is an object. -/
def object? (value : Json) (key : String) : Option Json :=
  (value.get? key).filter isObject

end Json

------------------------------------------------------------
-- Required Parts
------------------------------------------------------------

/- Why a required part of a value cannot be read. -/
inductive JsonError where
| missing (key : String)
| notAnObject
| notAText
| notANumber
deriving DecidableEq, Repr

namespace JsonError

/- The wording of an error. -/
def message : JsonError → String
| missing key => "key '" ++ key ++ "' not found"
| notAnObject => "value is not an object"
| notAText => "value is not a string"
| notANumber => "value is not a number"

end JsonError

namespace Json

/- A required member of an object. -/
def member (value : Json) (key : String) : Except JsonError Json :=
  match value with
  | .object _ =>
      match value.get? key with
      | some v => .ok v
      | none => .error (.missing key)
  | _ => .error .notAnObject

/- A required text. -/
def asText : Json → Except JsonError Bytes
| .text s => .ok s
| _ => .error .notAText

/-
  A required 32-bit integer.  An integer out of range keeps its
  last 32 bits, a floating point number loses its fraction; true
  counts as one and false as zero.
-/
def asWord : Json → Except JsonError Int
| .int n => .ok (Word.signed32 n)
| .fractional n => .ok n.toWord
| .bool true => .ok 1
| .bool false => .ok 0
| _ => .error .notANumber

/- A member of an object, or a default if it is absent. -/
def memberOr
    {α : Type}
    (value : Json)
    (key : String)
    (read : Json → Except JsonError α)
    (fallback : α) : Except JsonError α :=
  match value with
  | .object _ =>
      match value.get? key with
      | some v => read v
      | none => .ok fallback
  | _ => .error .notAnObject

end Json

end Marginalia

import Marginalia.Json.Reader
import Marginalia.Proofs.Text
import Marginalia.Server.Incoming
import Marginalia.Server.Session

/-
  This file proves which values can be printed: those that were
  read from a text, their parts, and records of such values, like
  positions and ranges.

  The main statements are:
    * `Json.isPrintable_ofMembers`
    * `Json.isPrintable_of_parse`
    * `Incoming.isPrintable_of_mem_ofStream`
-/

namespace Marginalia

namespace Json

------------------------------------------------------------
-- Parts
------------------------------------------------------------

/- A member of an object that can be printed can be printed. -/
theorem isPrintable_of_find?
    {key : Bytes}
    {members : List (Bytes × Json)}
    {value : Json}
    (hMembers : areMembersPrintable members = true)
    (hFind : Members.find? key members = some value) :
    value.isPrintable = true := by
  induction members with
  | nil => cases hFind
  | cons member rest ih =>
      simp only [areMembersPrintable, Bool.and_eq_true] at hMembers
      unfold Members.find? at hFind
      split at hFind
      · have hSame : member.2 = value := Option.some.inj hFind
        rw [← hSame]
        exact hMembers.1.2
      · exact ih hMembers.2 hFind

/- So can a member of a value. -/
theorem isPrintable_of_get?
    {value part : Json}
    {key : String}
    (hValue : value.isPrintable = true)
    (hGet : value.get? key = some part) :
    part.isPrintable = true := by
  cases value with
  | object members => exact isPrintable_of_find? hValue hGet
  | _ => cases hGet

/- So can a required member. -/
theorem isPrintable_of_member
    {value part : Json}
    {key : String}
    (hValue : value.isPrintable = true)
    (hMember : value.member key = .ok part) :
    part.isPrintable = true := by
  unfold member at hMember
  split at hMember
  · split at hMember
    · next v hGet =>
        have hSame : v = part := Except.ok.inj hMember
        rw [← hSame]
        exact isPrintable_of_get? hValue hGet
    · cases hMember
  · cases hMember

/- A text that can be printed is UTF-8. -/
theorem isValid_of_asText
    {value : Json}
    {text : Bytes}
    (hValue : value.isPrintable = true)
    (hText : value.asText = .ok text) :
    Utf8.isValid text = true := by
  cases value with
  | text s =>
      have hSame : s = text := Except.ok.inj hText
      rw [← hSame]
      exact hValue
  | _ => cases hText

/- The parameters of a message can be printed. -/
theorem isPrintable_params
    {message : Json}
    (hMessage : message.isPrintable = true) :
    message.params.isPrintable = true := by
  unfold params
  cases hParams : message.get? "params" with
  | none => rfl
  | some part => exact isPrintable_of_get? hMessage hParams

/- The place of a document is UTF-8. -/
theorem isValid_of_documentUri
    {params : Json}
    {uri : Bytes}
    (hParams : params.isPrintable = true)
    (hUri : params.documentUri = .ok uri) :
    Utf8.isValid uri = true := by
  unfold documentUri at hUri
  cases hItem : params.member "textDocument" with
  | error e =>
      rw [hItem] at hUri
      cases hUri
  | ok item =>
      cases hPlace : item.member "uri" with
      | error e =>
          simp only [hItem, hPlace, bind, Except.bind] at hUri
          cases hUri
      | ok place =>
          simp only [hItem, hPlace, bind, Except.bind] at hUri
          have hPrintable := isPrintable_of_member hParams hItem
          exact
            isValid_of_asText (isPrintable_of_member hPrintable hPlace)
              hUri

------------------------------------------------------------
-- Records
------------------------------------------------------------

/- One more member. -/
theorem areMembersPrintable_insert
    {key : Bytes}
    {value : Json}
    {members : List (Bytes × Json)}
    (hKey : Utf8.isValid key = true)
    (hValue : value.isPrintable = true)
    (hMembers : areMembersPrintable members = true) :
    areMembersPrintable (Members.insert key value members) = true := by
  induction members with
  | nil => simp [Members.insert, areMembersPrintable, hKey, hValue]
  | cons member rest ih =>
      have hBoth := hMembers
      simp only [areMembersPrintable, Bool.and_eq_true] at hBoth
      unfold Members.insert
      split
      · simp [areMembersPrintable, hKey, hValue, hBoth.2]
      · split
        · simp [areMembersPrintable, hKey, hValue, hBoth]
        · simp [areMembersPrintable, hBoth, ih hBoth.2]

/- An object made of members that can be printed. -/
theorem isPrintable_ofMembers
    {members : List (Bytes × Json)}
    (hMembers : areMembersPrintable members = true) :
    (ofMembers members).isPrintable = true := by
  have hFold :
      ∀ made : List (Bytes × Json),
        areMembersPrintable made = true →
          areMembersPrintable
            (members.foldl
              (fun ms m => Members.insert m.1 m.2 ms) made) =
            true := by
    induction members with
    | nil =>
        intro made hMade
        exact hMade
    | cons member rest ih =>
        simp only [areMembersPrintable, Bool.and_eq_true] at hMembers
        intro made hMade
        apply ih hMembers.2
        exact
          areMembersPrintable_insert hMembers.1.1 hMembers.1.2 hMade
  exact hFold [] rfl

------------------------------------------------------------
-- Values That Were Read
------------------------------------------------------------

namespace Reader

/- A string is UTF-8.  The induction is on the fuel. -/
theorem isValid_of_stringRest
    (fuel : Nat) :
    ∀ {read s text rest : Bytes},
      stringRest fuel read s = some (text, rest) →
        Utf8.isValid text = true := by
  induction fuel with
  | zero =>
      intro read s text rest hString
      cases hString
  | succ fuel ih =>
      intro read s text rest hString
      cases s with
      | nil => cases hString
      | cons b s =>
          unfold stringRest at hString
          split at hString
          · split at hString
            · next hValid =>
                have hBoth := Prod.mk.inj (Option.some.inj hString)
                rw [← hBoth.1]
                exact hValid
            · cases hString
          · split at hString
            · split at hString
              · cases hString
              · split at hString
                · split at hString
                  · cases hString
                  · exact ih hString
                · split at hString
                  · cases hString
                  · exact ih hString
            · split at hString
              · cases hString
              · exact ih hString

/- What was read of a text that is JSON up to here. -/
theorem eq_some_of_orMalformed
    {α : Type}
    {read : Option α}
    {result : α}
    (hRead : orMalformed read = .ok result) :
    read = some result := by
  cases read with
  | none => cases hRead
  | some other => rw [Except.ok.inj hRead]

/- A result that was made of another one. -/
theorem exists_of_map_eq_ok
    {α β : Type}
    {f : α → β}
    {read : Except ParseFault α}
    {result : β}
    (hRead : read.map f = .ok result) :
    ∃ part, read = .ok part ∧ f part = result := by
  cases read with
  | error fault => cases hRead
  | ok part => exact ⟨part, rfl, Except.ok.inj hRead⟩

/- A numeral holds no text. -/
theorem isPrintable_of_numeral
    {negative : Bool}
    {whole fraction exponent : Bytes}
    {v : Json}
    (hNumeral : numeral negative whole fraction exponent = .ok v) :
    v.isPrintable = true := by
  unfold numeral at hNumeral
  dsimp only at hNumeral
  split at hNumeral
  · cases hNumeral
    rfl
  · split at hNumeral
    · cases hNumeral
    · cases hNumeral
      rfl

/- Neither does a number without its sign. -/
theorem isPrintable_of_unsigned
    {negative : Bool}
    {s rest : Bytes}
    {v : Json}
    (hUnsigned : unsigned negative s = .ok (v, rest)) :
    v.isPrintable = true := by
  unfold unsigned at hUnsigned
  split at hUnsigned
  · cases hUnsigned
  · rcases exists_of_map_eq_ok hUnsigned with ⟨n, hNumeral, hRead⟩
    rw [← (Prod.mk.inj hRead).1]
    exact isPrintable_of_numeral hNumeral

/- Neither does a number. -/
theorem isPrintable_of_number
    {s rest : Bytes}
    {v : Json}
    (hNumber : number s = .ok (v, rest)) :
    v.isPrintable = true := by
  unfold number at hNumber
  split at hNumber
  · exact isPrintable_of_unsigned hNumber
  · exact isPrintable_of_unsigned hNumber

/-
  What is read with some fuel can be printed: a value, the
  elements of an array and the members of an object.
-/
structure ReadsPrintable (fuel : Nat) : Prop where
  value :
    ∀ {s rest : Bytes} {v : Json},
      value fuel s = .ok (v, rest) → v.isPrintable = true
  elements :
    ∀ {s rest : Bytes} {items : List Json},
      elements fuel s = .ok (items, rest) →
        areItemsPrintable items = true
  members :
    ∀ {s rest : Bytes} {members : List (Bytes × Json)},
      Reader.members fuel s = .ok (members, rest) →
        areMembersPrintable members = true

/- A value that is read with more fuel. -/
theorem isPrintable_of_value
    {fuel : Nat}
    {s rest : Bytes}
    {v : Json}
    (hReads : ReadsPrintable fuel)
    (hValue : value (fuel + 1) s = .ok (v, rest)) :
    v.isPrintable = true := by
  cases s with
  | nil => cases hValue
  | cons b s =>
      rw [value] at hValue
      split at hValue
      · split at hValue
        · cases hValue
          rfl
        · rcases exists_of_map_eq_ok hValue with
            ⟨read, hMembers, hRead⟩
          rw [← (Prod.mk.inj hRead).1]
          exact isPrintable_ofMembers (hReads.members hMembers)
      · split at hValue
        · split at hValue
          · cases hValue
            rfl
          · rcases exists_of_map_eq_ok hValue with
              ⟨read, hElements, hRead⟩
            rw [← (Prod.mk.inj hRead).1]
            exact hReads.elements hElements
        · split at hValue
          · rcases exists_of_map_eq_ok hValue with
              ⟨read, hString, hRead⟩
            rw [← (Prod.mk.inj hRead).1]
            exact
              isValid_of_stringRest _ (eq_some_of_orMalformed hString)
          · split at hValue
            · exact isPrintable_of_number hValue
            · split at hValue
              · cases hValue
                rfl
              · split at hValue
                · cases hValue
                  rfl
                · rcases exists_of_map_eq_ok hValue with
                    ⟨read, _, hRead⟩
                  rw [← (Prod.mk.inj hRead).1]
                  rfl

/- Elements that are read with more fuel. -/
theorem areItemsPrintable_of_elements
    {fuel : Nat}
    {s rest : Bytes}
    {items : List Json}
    (hReads : ReadsPrintable fuel)
    (hElements : elements (fuel + 1) s = .ok (items, rest)) :
    areItemsPrintable items = true := by
  rw [elements] at hElements
  split at hElements
  · cases hElements
  · next v s hValue =>
      have hFirst := hReads.value hValue
      split at hElements
      · rcases exists_of_map_eq_ok hElements with
          ⟨read, hRest, hRead⟩
        rw [← (Prod.mk.inj hRead).1]
        simp [areItemsPrintable, hFirst, hReads.elements hRest]
      · cases hElements
        simp [areItemsPrintable, hFirst]
      · cases hElements

/- Members that are read with more fuel. -/
theorem areMembersPrintable_of_members
    {fuel : Nat}
    {s rest : Bytes}
    {members : List (Bytes × Json)}
    (hReads : ReadsPrintable fuel)
    (hMembers : Reader.members (fuel + 1) s = .ok (members, rest)) :
    areMembersPrintable members = true := by
  rw [Reader.members] at hMembers
  split at hMembers
  · split at hMembers
    · cases hMembers
    · next key s hString =>
        have hKey := isValid_of_stringRest _ hString
        split at hMembers
        · split at hMembers
          · cases hMembers
          · next v s hValue =>
              have hFirst := hReads.value hValue
              split at hMembers
              · rcases exists_of_map_eq_ok hMembers with
                  ⟨read, hRest, hRead⟩
                rw [← (Prod.mk.inj hRead).1]
                simp [areMembersPrintable, hKey, hFirst,
                  hReads.members hRest]
              · cases hMembers
                simp [areMembersPrintable, hKey, hFirst]
              · cases hMembers
        · cases hMembers
  · cases hMembers

/- All that is read can be printed. -/
theorem readsPrintable
    (fuel : Nat) :
    ReadsPrintable fuel := by
  induction fuel with
  | zero =>
      constructor
      · intro s rest v hValue
        cases hValue
      · intro s rest items hElements
        cases hElements
      · intro s rest members hMembers
        cases hMembers
  | succ fuel ih =>
      constructor
      · intro s rest v hValue
        exact isPrintable_of_value ih hValue
      · intro s rest items hElements
        exact areItemsPrintable_of_elements ih hElements
      · intro s rest members hMembers
        exact areMembersPrintable_of_members ih hMembers

end Reader

/- A value that was read from a text can be printed. -/
theorem isPrintable_of_parse
    {s : Bytes}
    {v : Json}
    (hParse : parse s = .ok v) :
    v.isPrintable = true := by
  unfold parse at hParse
  dsimp only at hParse
  split at hParse
  · cases hParse
  · next hValue =>
      split at hParse
      · cases hParse
        exact (Reader.readsPrintable _).value hValue
      · cases hParse

end Json

/- The form of a position can be printed. -/
theorem Position.isPrintable_toJson
    (position : Position) :
    position.toJson.isPrintable = true := by
  apply Json.isPrintable_ofMembers
  rfl

/- So can that of a range. -/
theorem Range.isPrintable_toJson
    (range : Range) :
    range.toJson.isPrintable = true := by
  apply Json.isPrintable_ofMembers
  simp only [List.map, Json.areMembersPrintable,
    Position.isPrintable_toJson]
  rfl

namespace Incoming

/- A body that is a message can be printed. -/
theorem isPrintable_of_ofBody
    {body : Bytes}
    {message : Json}
    (hBody : .message message = ofBody body) :
    message.isPrintable = true := by
  unfold ofBody at hBody
  split at hBody
  · next value hParse =>
      have hSame : message = value := Incoming.message.inj hBody
      rw [hSame]
      exact Json.isPrintable_of_parse hParse
  · cases hBody
  · cases hBody

/- A message that arrives on a stream can be printed. -/
theorem isPrintable_of_mem_ofStream
    (s : Bytes)
    {message : Json}
    (hMember : .message message ∈ ofStream s) :
    message.isPrintable = true := by
  have hFaults :
      ∀ n : Nat,
        .message message ∉ List.replicate n Incoming.faultyLength := by
    intro n hMember
    cases List.eq_of_mem_replicate hMember
  induction s using ofStream.induct with
  | case1 s content rest faults hDecode ih =>
      rw [ofStream, hDecode] at hMember
      rcases List.mem_append.mp hMember with hFaulty | hMember
      · exact absurd hFaulty (hFaults faults)
      · rcases List.mem_cons.mp hMember with hBody | hRest
        · exact isPrintable_of_ofBody hBody
        · exact ih hRest
  | case2 s rest faults hDecode ih =>
      rw [ofStream, hDecode] at hMember
      rcases List.mem_append.mp hMember with hFaulty | hMember
      · exact absurd hFaulty (hFaults faults)
      · rcases List.mem_cons.mp hMember with hOverlong | hRest
        · cases hOverlong
        · exact ih hRest
  | case3 s faults hDecode =>
      rw [ofStream, hDecode] at hMember
      exact absurd hMember (hFaults faults)
  | case4 s faults hDecode =>
      rw [ofStream, hDecode] at hMember
      exact absurd hMember (hFaults faults)

end Incoming

end Marginalia

import Marginalia.Proofs.Grammar.Overflow
import Marginalia.Proofs.Registry.Histories

/-
  This file proves when a call to a registry fails, and what is
  remembered of a call.

  A file may be missing, or hold anything at all: its languages
  have a grammar or none, and that is remembered.  The exception
  is a file with a group whose number needs more than 64 bits:
  the call fails, nothing is remembered of it, and the file is
  read again by the next call.

  Key definitions include:
    * `Registry.FailsOn`
  The main statements are:
    * `Registry.loadFile_eq_error_iff`
    * `Registry.answer_remembered`
    * `Registry.answers_unless_overflowing`
    * `Registry.Overnumbered.exchanges_overnumbered`
-/

namespace Marginalia

namespace Registry

------------------------------------------------------------
-- Failing Calls
------------------------------------------------------------

/- A file cannot be loaded just if the value in it overflows. -/
theorem loadFile_eq_error_iff
    {engine : BoundedEngine}
    {files : Files}
    {path : Bytes}
    {e : TableError} :
    (loadFile engine files path).1 = .error e ↔
      ∃ content doc,
        files (Path.fileName path) = some content ∧
          Json.parse? content = some doc ∧ doc.Overflows := by
  unfold loadFile
  cases hContent : files (Path.fileName path) with
  | none => simp
  | some content =>
      dsimp only
      cases hDoc : Json.parse? content with
      | none => simp [hDoc]
      | some doc => simp [hDoc, Grammar.ofJson_eq_error_iff]

/-
  Nothing is remembered of the language or of its file, and the
  value in the file overflows.
-/
def FailsOn (registry : Registry) (call : Call) : Prop :=
  remembered? call.language.lower registry.byLanguage = none ∧
    ∃ d content doc,
      registry.descriptor? call.language = some d ∧
        remembered? d.path registry.byPath = none ∧
        call.files (Path.fileName d.path) = some content ∧
        Json.parse? content = some doc ∧ doc.Overflows

/- A call that fails leaves the registry as it is. -/
theorem answer_of_failsOn
    {registry : Registry}
    {call : Call}
    (hFails : registry.FailsOn call) :
    (registry.answer call).reply = .error .captureNumber ∧
      (registry.answer call).next = registry := by
  rcases hFails with
    ⟨hLanguage, d, content, doc, hDescriptor, hPath, hContent, hParse,
      hOverflows⟩
  have hError :
      (loadFile registry.engine call.files d.path).1 =
        .error .captureNumber :=
    loadFile_eq_error_iff.mpr
      ⟨content, doc, hContent, hParse, hOverflows⟩
  rcases hFile : loadFile registry.engine call.files d.path with
    ⟨outcome, remarks⟩
  rw [hFile] at hError
  dsimp only at hError
  subst hError
  unfold answer
  rw [grammarFor_of_asked (.failed hLanguage hDescriptor hPath hFile)]
  exact ⟨rfl, rfl⟩

/- Every other call has a reply. -/
theorem exists_reply_of_not_failsOn
    {registry : Registry}
    {call : Call}
    (hFails : ¬registry.FailsOn call) :
    ∃ result, (registry.answer call).reply = .ok result := by
  rcases exists_answer registry call with
    ⟨reply, next, remarks, hAnswer, hAsked⟩
  rw [hAnswer]
  cases hAsked with
  | @failed d e _ hLanguage hDescriptor hPath hFile =>
      have hError :
          (loadFile registry.engine call.files d.path).1 = .error e := by
        rw [hFile]
      rcases loadFile_eq_error_iff.mp hError with
        ⟨content, doc, hContent, hParse, hOverflows⟩
      exact
        absurd
          ⟨hLanguage, d, content, doc, hDescriptor, hPath, hContent,
            hParse, hOverflows⟩
          hFails
  | _ => exact ⟨_, rfl⟩

/-
  Once there is a reply for a language, it is the reply from then
  on, whatever the files hold, and nothing is read for it.
-/
theorem answer_remembered
    {registry : Registry}
    {call : Call}
    {result : Option LoadedGrammar}
    (hReply : (registry.answer call).reply = .ok result)
    (between : List Call)
    {later : Call}
    (hLower : later.language.lower = call.language.lower) :
    let next := (registry.answer call).next.after between
    next.answer later = ⟨later, .ok result, next, []⟩ := by
  apply answer_of_remembered?
  rw [hLower]
  exact
    (keeps_after between _).byLanguage_eq (remembered?_answer hReply)

/-
  A value with a scope name is a grammar and any other one is
  none, unless it overflows.  Captures may be anything: what names
  no group is passed over.

  A call has a reply, which is remembered: the file is not read
  again for its language, whatever calls come between.  It is
  otherwise only if the value in the file overflows; then the call
  fails, and the registry remembers nothing of it.
-/
theorem answers_unless_overflowing
    (engine : BoundedEngine)
    (doc captures : Json)
    (registry : Registry)
    (call : Call) :
    ((doc.text? "scopeName" = none →
        (Grammar.ofJson engine doc).1 = .ok none) ∧
      (doc.Overflows →
        (Grammar.ofJson engine doc).1 = .error .captureNumber) ∧
      ((doc.text? "scopeName").isSome → ¬doc.Overflows →
        ∃ grammar,
          (Grammar.ofJson engine doc).1 = .ok (some grammar))) ∧
    (match captures with
      | .object members =>
          CaptureNames.ofJson? captures =
            CaptureNames.ofJson?
              (.object
                (members.filter (fun m => CaptureNames.Names m)))
      | _ => CaptureNames.ofJson? captures = some []) ∧
    let exchange := registry.answer call
    (registry.FailsOn call →
      exchange.reply = .error .captureNumber ∧
        exchange.next = registry) ∧
    (¬registry.FailsOn call →
      ∃ result,
        exchange.reply = .ok result ∧
          ∀ (between : List Call) (later : Call),
            later.language.lower = call.language.lower →
              let next := exchange.next.after between
              next.answer later = ⟨later, .ok result, next, []⟩) := by
  refine ⟨?_, ?_, answer_of_failsOn, ?_⟩
  · exact
      ⟨Grammar.ofJson_eq_none_iff.mpr, Grammar.ofJson_eq_error_iff.mpr,
        Grammar.exists_ofJson_eq⟩
  · cases captures with
    | object members =>
        exact (CaptureNames.ofMembers?_filter members []).symm
    | _ => rfl
  · intro hFails
    rcases exists_reply_of_not_failsOn hFails with ⟨result, hReply⟩
    exact
      ⟨result, hReply, fun between later hLower =>
        answer_remembered hReply between hLower⟩

------------------------------------------------------------
-- A Number of Twenty Digits
------------------------------------------------------------

namespace Overnumbered

/- A grammar whose only rule names the group 2^64. -/
def text : Bytes :=
  utf8 ("\x7b\"scopeName\":\"source.t\",\"patterns\":[\x7b\"match\":\"a\"," ++
    "\"captures\":\x7b\"18446744073709551616\":\x7b\"name\":\"x\"\x7d\x7d" ++
    "\x7d]\x7d")

/- The grammar without the rule. -/
def repaired : Bytes :=
  utf8 "\x7b\"scopeName\":\"source.t\",\"patterns\":[]\x7d"

/- Every file holds one text. -/
def holding (content : Bytes) : Files := fun _ => some content

/- The file of the language `t` is repaired after two calls. -/
def calls : List Call :=
  [⟨holding text, utf8 "t"⟩, ⟨holding text, utf8 "t"⟩,
    ⟨holding repaired, utf8 "t"⟩]

/-
  The grammar cannot be built.  A registry fails on its language
  and reads the file again at every call, until it is repaired.
-/
theorem exchanges_overnumbered :
    (∃ doc,
      Json.parse? text = some doc ∧
        (Grammar.ofJson .standard doc).1 = .error .captureNumber) ∧
    let history :=
      (create .standard [⟨[utf8 "t"], [], utf8 "g.json"⟩] []).exchanges
        calls
    history.map Exchange.read? =
        [some (utf8 "g.json"), some (utf8 "g.json"),
          some (utf8 "g.json")] ∧
      ∃ loaded,
        history.map Exchange.reply =
          [.error .captureNumber, .error .captureNumber,
            .ok (some loaded)] :=
  ⟨⟨_, rfl, rfl⟩, by decide +kernel, _, rfl⟩

end Overnumbered

end Registry

end Marginalia

import Marginalia.Proofs.Server.Requests

/-
  This file proves that the server asks its client only for what
  it was last told that the client can give.

  Key definitions include:
    * `Json.offered?`, `Session.offered?`
    * `Session.IsOffered`
    * `Turn.Offers`
  The main statements are:
    * `Turn.offers_takeUp`
    * `Turn.offers_of_step`
-/

namespace Marginalia

------------------------------------------------------------
-- Offers
------------------------------------------------------------

/- What a first request says about whether the client can be asked. -/
def Json.offered? (message : Json) (key : String) : Option Bool :=
  if message.text? "method" == some (utf8 "initialize") then
    (message.params.object? "initializationOptions").bind
      (fun options => options.bool? key)
  else none

namespace Session

/- What the last first request says that says anything about it. -/
def offered? (events : List Event) (key : String) : Option Bool :=
  (events.filterMap Event.message?).findSome?
    (fun message => message.offered? key)

/- The request is for something that was offered before. -/
def IsOffered (frame : Json) (before : List Event) : Prop :=
  frame.text? "method" = some (utf8 "honyaku/translate") ∧
      offered? before "translate" = some true ∨
    frame.text? "method" = some (utf8 "honyaku/selectionContains") ∧
      offered? before "selectionContains" = some true

/- Each request among the events is for something that was offered. -/
def AsksForOffers (events : List Event) : Prop :=
  ∀ (frame : Json) (before : List Event),
    Event.sent frame :: before <:+ events →
      Exchange.isRequest frame = true → IsOffered frame before

/- Any event but a request may come next. -/
theorem asksForOffers_cons
    {event : Event}
    {events : List Event}
    (hEvents : AsksForOffers events)
    (hEvent :
      ∀ frame ∈ event.frame?, Exchange.isRequest frame = false) :
    AsksForOffers (event :: events) := by
  intro frame before hSuffix hRequest
  rcases List.suffix_cons_iff.mp hSuffix with hSame | hOlder
  · have hFirst : Event.sent frame = event :=
      (List.cons.inj hSame).1
    have hNot := hEvent frame (by rw [← hFirst]; rfl)
    rw [hRequest] at hNot
    cases hNot
  · exact hEvents frame before hOlder hRequest

/- So may any events that ask for nothing. -/
theorem asksForOffers_append
    {news events : List Event}
    (hEvents : AsksForOffers events)
    (hNews : ∀ event ∈ news, event.isUnasked = true) :
    AsksForOffers (news ++ events) := by
  induction news with
  | nil => exact hEvents
  | cons event news ih =>
      apply asksForOffers_cons
      · apply ih
        intro other hOther
        exact hNews other (List.mem_cons_of_mem event hOther)
      · have hIs := hNews event List.mem_cons_self
        intro frame hFrame
        cases event <;> simp_all [Event.isUnasked, Event.frame?]

/- A request for something that was offered may come next. -/
theorem asksForOffers_sent
    {frame : Json}
    {events : List Event}
    (hEvents : AsksForOffers events)
    (hOffered : IsOffered frame events) :
    AsksForOffers (.sent frame :: events) := by
  intro other before hSuffix hRequest
  rcases List.suffix_cons_iff.mp hSuffix with hSame | hOlder
  · have hBoth := List.cons.inj hSame
    rw [Event.sent.inj hBoth.1, hBoth.2]
    exact hOffered
  · exact hEvents other before hOlder hRequest

/- Events that ask for nothing offer nothing. -/
theorem offered?_append
    {news : List Event}
    (hNews : ∀ event ∈ news, event.isUnasked = true)
    (events : List Event)
    (key : String) :
    offered? (news ++ events) key = offered? events key := by
  have hNone : news.filterMap Event.message? = [] := by
    apply List.filterMap_eq_nil_iff.mpr
    intro event hEvent
    have hIs := hNews event hEvent
    cases event <;> simp_all [Event.isUnasked, Event.message?]
  rw [offered?, List.filterMap_append, hNone]
  rfl

/- A message that is taken up may offer something. -/
theorem offered?_handled
    (message : Json)
    (events : List Event)
    (key : String) :
    offered? (.handled message :: events) key =
      (message.offered? key).or (offered? events key) := by
  rw [offered?, List.filterMap_cons]
  simp only [Event.message?, List.findSome?_cons]
  cases message.offered? key <;> rfl

end Session

------------------------------------------------------------
-- What Holds Between Steps
------------------------------------------------------------

namespace Turn

/-
  The server knows what was offered, and it asked for nothing
  else.
-/
structure Offers (turn : Turn) : Prop where
  selection_eq :
    turn.server.asksSelection =
      (Session.offered? turn.events "selectionContains").getD false
  gloss_eq :
    turn.server.asksGloss =
      (Session.offered? turn.events "translate").getD false
  asksForOffers : Session.AsksForOffers turn.events

variable {files : Files}
variable {turn next : Turn}

/- Asking for nothing keeps this. -/
theorem offers_of_unasked
    (hOffers : Offers turn)
    (hUnasked : Unasked turn next) :
    Offers next := by
  rcases hUnasked.news with ⟨news, hNews, hAll⟩
  refine ⟨?_, ?_, ?_⟩
  · rw [hUnasked.asksSelection_eq, hNews,
      Session.offered?_append hAll]
    exact hOffers.selection_eq
  · rw [hUnasked.asksGloss_eq, hNews, Session.offered?_append hAll]
    exact hOffers.gloss_eq
  · rw [hNews]
    exact Session.asksForOffers_append hOffers.asksForOffers hAll

/- Only what was offered is asked for. -/
theorem isOffered_of_asked
    {recipient : Recipient}
    {purpose : Purpose}
    {request : Request}
    {waiting : Waiting}
    (hOffers : Offers turn)
    (hAsked : Asked recipient purpose turn request waiting) :
    Session.IsOffered (turn.nextFrame request) turn.events := by
  have hTrue :
      ∀ {offered? : Option Bool},
        true = offered?.getD false → offered? = some true := by
    intro offered? hGetD
    cases offered? with
    | none => cases hGetD
    | some offered =>
        have hSame : true = offered := hGetD
        rw [← hSame]
  cases hAsked with
  | selection inquiry hAsks _ _ =>
      right
      refine ⟨rfl, hTrue ?_⟩
      rw [← hOffers.selection_eq]
      exact hAsks.symm
  | gloss hAsks _ hRequest =>
      left
      refine ⟨?_, hTrue ?_⟩
      · exact method_nextFrame_of_gloss hRequest turn
      · rw [← hOffers.gloss_eq]
        exact hAsks.symm

/- A lookup keeps this. -/
theorem offers_of_lookedUp
    {recipient : Recipient}
    {purpose : Purpose}
    {rounds : Nat}
    {Result : Json → Prop}
    {outcome : Except HandlerError Unit × Turn}
    (hOffers : Offers turn)
    (hLookedUp :
      LookedUp recipient purpose rounds Result turn outcome) :
    Offers outcome.2 := by
  have hThen :
      ∀ {middle : Turn}, Quiet turn middle → Offers middle :=
    fun hQuiet => offers_of_unasked hOffers (unasked_of_quiet hQuiet)
  cases hLookedUp with
  | answered hQuiet _ =>
      refine offers_of_unasked (hThen hQuiet) ?_
      exact unasked_sent rfl _
  | failed hQuiet => exact hThen hQuiet
  | unsent hQuiet _ _ =>
      have hMiddle := hThen hQuiet
      exact
        ⟨hMiddle.selection_eq, hMiddle.gloss_eq,
          hMiddle.asksForOffers⟩
  | asked hQuiet hAsked _ =>
      have hMiddle := hThen hQuiet
      refine ⟨hMiddle.selection_eq, hMiddle.gloss_eq, ?_⟩
      exact
        Session.asksForOffers_sent hMiddle.asksForOffers
          (isOffered_of_asked hMiddle hAsked)

/- An attempt keeps this if its handler does. -/
theorem offers_attempt
    {h : Handler Unit}
    (hOffers : Offers (h.runFrom turn).2)
    (recipient : Recipient) :
    Offers (turn.attempt recipient h) := by
  unfold attempt
  cases hRun : h.runFrom turn with
  | mk result after =>
      rw [hRun] at hOffers
      cases result with
      | ok _ => exact hOffers
      | error e =>
          exact
            offers_of_unasked hOffers
              (unasked_refuse after recipient e)

/- The server may change otherwise. -/
theorem offers_update
    {f : Server → Server}
    (hOffers : Offers turn)
    (hSelection :
      (f turn.server).asksSelection = turn.server.asksSelection)
    (hGloss : (f turn.server).asksGloss = turn.server.asksGloss) :
    Offers (turn.update f) :=
  ⟨hSelection.trans hOffers.selection_eq,
    hGloss.trans hOffers.gloss_eq, hOffers.asksForOffers⟩

/- A message that is taken up keeps this if it offers nothing. -/
theorem offers_handled
    {message : Json}
    (hOffers : Offers turn)
    (hSetUp : ¬message.HasMethod "initialize") :
    Offers (turn.note (.handled message)) := by
  have hNone : ∀ key : String, message.offered? key = none := by
    intro key
    have hNot :
        ¬(message.text? "method" == some (utf8 "initialize")) =
          true := by
      simpa [Json.HasMethod] using hSetUp
    rw [Json.offered?, if_neg hNot]
  refine ⟨?_, ?_, ?_⟩
  · rw [note, Session.offered?_handled, hNone]
    exact hOffers.selection_eq
  · rw [note, Session.offered?_handled, hNone]
    exact hOffers.gloss_eq
  · refine Session.asksForOffers_cons hOffers.asksForOffers ?_
    intro frame hFrame
    cases hFrame

/- Setting the server up makes the offers known. -/
theorem offers_readied
    {message : Json}
    (hOffers : Offers turn)
    (hSetUp : message.HasMethod "initialize") :
    Offers ((turn.note (.handled message)).readied message.params) := by
  have hOffered :
      ∀ key : String,
        message.offered? key =
          ((message.params.object? "initializationOptions").getD
            .null).bool? key := by
    intro key
    have hIs :
        (message.text? "method" == some (utf8 "initialize")) =
          true := by
      simpa [Json.HasMethod] using hSetUp
    rw [Json.offered?, if_pos hIs]
    cases message.params.object? "initializationOptions" <;> rfl
  have hGetD :
      ∀ said? before? : Option Bool,
        (said?.or before?).getD false =
          said?.getD (before?.getD false) := by
    intro said? before?
    cases said? <;> rfl
  refine ⟨?_, ?_, ?_⟩
  · have hEvents := Session.offered?_handled message turn.events
      "selectionContains"
    simp only [readied, update, note, hEvents, hOffered, hGetD,
      hOffers.selection_eq]
  · have hEvents := Session.offered?_handled message turn.events
      "translate"
    simp only [readied, update, note, hEvents, hOffered, hGetD,
      hOffers.gloss_eq]
  · refine Session.asksForOffers_cons hOffers.asksForOffers ?_
    intro frame hFrame
    cases hFrame

/- A message is taken up. -/
theorem offers_takeUp
    (hOffers : Offers turn)
    (files : Files)
    (message : Json) :
    Offers
      ((turn.note (.handled message)).attempt
        (Recipient.ofMessage message)
        (Handler.handle files message)) := by
  apply offers_attempt
  cases Handler.dispatched_handle files message
      (turn.note (.handled message)) with
  | lookedUp _ hSetUp hLookedUp =>
      exact
        offers_of_lookedUp (offers_handled hOffers hSetUp) hLookedUp
  | setUp _ hSetUp hUnasked =>
      exact
        offers_of_unasked (offers_readied hOffers hSetUp) hUnasked
  | unasked _ hSetUp hUnasked =>
      exact
        offers_of_unasked (offers_handled hOffers hSetUp) hUnasked

/- Going on keeps this. -/
theorem offers_resume
    (hOffers : Offers turn)
    (waiting : Waiting)
    (result? : Option Json) :
    Offers
      (turn.attempt waiting.recipient
        (Handler.resume waiting result?)) := by
  apply offers_attempt
  unfold Handler.resume
  rw [Handler.runFrom_update_bind]
  exact
    offers_of_lookedUp (offers_update hOffers rfl rfl)
      (Handler.looksUp_proceed result? waiting _)

/- Taking an answer keeps this. -/
theorem offers_answered
    (hOffers : Offers turn)
    (waiting : Waiting)
    (message : Json) :
    Offers
      ((turn.note (.answered message)).noteFailure waiting
        message) := by
  have hAnswered : Offers (turn.note (.answered message)) := by
    refine ⟨hOffers.selection_eq, hOffers.gloss_eq, ?_⟩
    refine Session.asksForOffers_cons hOffers.asksForOffers ?_
    intro frame hFrame
    cases hFrame
  exact
    offers_of_unasked hAnswered
      (unasked_of_quiet (quiet_noteFailure _ waiting message))

/- Every step asks only for what was offered. -/
theorem offers_of_step
    {arrived : Incoming → Prop}
    (hOffers : Offers turn)
    (hStep : Step files arrived turn next) :
    Offers next := by
  cases hStep with
  | takeUp hArrived hWaiting hGoesOn =>
      exact offers_takeUp hOffers files _
  | answer hArrived hWaiting hAnswered =>
      exact offers_resume (offers_answered hOffers _ _) _ _
  | giveUp hWaiting hClosed => exact offers_resume hOffers _ none
  | interrupt hArrived hWaiting =>
      have hFree : Offers turn.unwaiting :=
        offers_update hOffers rfl rfl
      exact offers_of_unasked hFree (unasked_refuse _ _ _)
  | enqueue hQueue => exact offers_update hOffers rfl rfl
  | close => exact offers_update hOffers rfl rfl
  | crash hArrived hWaiting => exact offers_update hOffers rfl rfl
  | remark r =>
      exact
        offers_of_unasked hOffers
          (unasked_of_quiet (quiet_remark turn r))

/- So do all steps. -/
theorem offers_of_steps
    {arrived : Incoming → Prop}
    (hOffers : Offers turn)
    (hSteps : Steps files arrived turn next) :
    Offers next := by
  induction hSteps with
  | refl => exact hOffers
  | tail _ hStep ih => exact offers_of_step ih hStep

/- A session begins with nothing offered. -/
theorem offers_create
    (engine : BoundedEngine)
    (descriptors : List Descriptor) :
    Offers ⟨Server.create engine descriptors, []⟩ := by
  refine ⟨rfl, rfl, ?_⟩
  intro frame before hSuffix
  cases List.suffix_nil.mp hSuffix

end Turn

end Marginalia

import Marginalia.Server.Session

/-
  This file says what the pieces of a handler come to, so that
  no later proof opens the monad of handlers.

  A handler keeps a relation between turns if every run of it
  does, failed runs included.  For a relation that is reflexive
  and transitive it is enough that the pieces keep it.

  Key definitions include:
    * `Handler.Keeps`
  The main statements are:
    * `Handler.runFrom_bind`
    * `Handler.keeps_bind`
-/

namespace Marginalia

namespace Handler

variable {α β : Type}

------------------------------------------------------------
-- Pieces
------------------------------------------------------------

/- A value is returned, and nothing else happens. -/
@[simp]
theorem runFrom_pure
    (value : α)
    (turn : Turn) :
    (pure value : Handler α).runFrom turn = (.ok value, turn) :=
  rfl

/- A failure changes nothing. -/
@[simp]
theorem runFrom_throw
    (e : HandlerError)
    (turn : Turn) :
    (throw e : Handler α).runFrom turn = (.error e, turn) :=
  rfl

/- The second piece runs from where the first one ends. -/
theorem runFrom_bind
    (h : Handler α)
    (k : α → Handler β)
    (turn : Turn) :
    (h >>= k).runFrom turn =
      match h.runFrom turn with
      | (.ok value, next) => (k value).runFrom next
      | (.error e, next) => (.error e, next) := by
  have hRun :
      (h >>= k).runFrom turn =
        (ExceptT.bindCont k (h.runFrom turn).1 :
          StateM Turn (Except HandlerError β)).run
            (h.runFrom turn).2 := rfl
  rw [hRun]
  rcases h.runFrom turn with ⟨result, next⟩
  cases result with
  | ok value => rfl
  | error e => rfl

/- The second piece of a run whose first piece succeeds. -/
theorem runFrom_bind_of_ok
    {h : Handler α}
    {turn next : Turn}
    {value : α}
    (hRun : h.runFrom turn = (.ok value, next))
    (k : α → Handler β) :
    (h >>= k).runFrom turn = (k value).runFrom next := by
  rw [runFrom_bind, hRun]

/- A run whose first piece fails. -/
theorem runFrom_bind_of_error
    {h : Handler α}
    {turn next : Turn}
    {e : HandlerError}
    (hRun : h.runFrom turn = (.error e, next))
    (k : α → Handler β) :
    (h >>= k).runFrom turn = (.error e, next) := by
  rw [runFrom_bind, hRun]

/- Looking at the server changes nothing. -/
@[simp]
theorem runFrom_server_bind
    (k : Server → Handler β)
    (turn : Turn) :
    (server >>= k).runFrom turn = (k turn.server).runFrom turn :=
  rfl

/- A change of the server. -/
@[simp]
theorem runFrom_update
    (f : Server → Server)
    (turn : Turn) :
    (update f).runFrom turn = (.ok (), turn.update f) :=
  rfl

/- A change of the server, and what comes after it. -/
@[simp]
theorem runFrom_update_bind
    (f : Server → Server)
    (k : Unit → Handler β)
    (turn : Turn) :
    (update f >>= k).runFrom turn = (k ()).runFrom (turn.update f) :=
  rfl

/- A remark, and what comes after it. -/
@[simp]
theorem runFrom_remark_bind
    (r : Diagnostic)
    (k : Unit → Handler β)
    (turn : Turn) :
    (remark r >>= k).runFrom turn =
      (k ()).runFrom (turn.note (.remarked r)) :=
  rfl

/- A part that can be read is returned. -/
@[simp]
theorem read_ok
    (value : α) :
    read (.ok value) = (pure value : Handler α) :=
  rfl

/- A part that cannot be read is a failure. -/
@[simp]
theorem read_error
    (e : JsonError) :
    read (.error e) = (throw (.json e) : Handler α) :=
  rfl

/- Nothing comes after a failure. -/
@[simp]
theorem throw_bind
    (e : HandlerError)
    (k : α → Handler β) :
    (throw e >>= k) = (throw e : Handler β) :=
  rfl

/- A frame that is UTF-8 is sent. -/
theorem runFrom_send_of_isPrintable
    {frame : Json}
    (hFrame : frame.isPrintable = true)
    (turn : Turn) :
    (send frame).runFrom turn = (.ok (), turn.note (.sent frame)) := by
  rw [send, if_pos hFrame]
  rfl

/- A frame that is not UTF-8 is not sent. -/
theorem runFrom_send_of_not_isPrintable
    {frame : Json}
    (hFrame : ¬frame.isPrintable = true)
    (turn : Turn) :
    (send frame).runFrom turn = (.error .unprintable, turn) := by
  rw [send, if_neg hFrame]
  rfl

/- The turn with one more request numbered. -/
def counted (turn : Turn) : Turn :=
  turn.update (fun s =>
    { s with nextRequest := Word.signed32 (turn.server.nextRequest + 1) })

/- The `id` of the next request. -/
def nextId (turn : Turn) : Bytes :=
  requestId turn.server.nextRequest

/- A request that is UTF-8 is sent, and its `id` returned. -/
theorem runFrom_ask_of_isPrintable
    {request : Request}
    {turn : Turn}
    (hFrame :
      (requestFrame (nextId turn) request).isPrintable = true) :
    (ask request).runFrom turn =
      (.ok (nextId turn),
        (counted turn).note
          (.sent (requestFrame (nextId turn) request))) := by
  unfold ask
  rw [runFrom_server_bind]
  dsimp only
  rw [runFrom_update_bind]
  exact
    runFrom_bind_of_ok (runFrom_send_of_isPrintable hFrame _)
      (fun _ => pure (nextId turn))

/- A request that is not UTF-8 is numbered and not sent. -/
theorem runFrom_ask_of_not_isPrintable
    {request : Request}
    {turn : Turn}
    (hFrame :
      ¬(requestFrame (nextId turn) request).isPrintable = true) :
    (ask request).runFrom turn =
      (.error .unprintable, counted turn) := by
  unfold ask
  rw [runFrom_server_bind]
  dsimp only
  rw [runFrom_update_bind]
  exact
    runFrom_bind_of_error (runFrom_send_of_not_isPrintable hFrame _)
      (fun _ => pure (nextId turn))

------------------------------------------------------------
-- Relations That Are Kept
------------------------------------------------------------

/- Every run of the handler keeps the relation. -/
def Keeps (R : Turn → Turn → Prop) (h : Handler α) : Prop :=
  ∀ turn, R turn (h.runFrom turn).2

variable {R : Turn → Turn → Prop}

/- Returning a value keeps a reflexive relation. -/
theorem keeps_pure
    (hRefl : ∀ turn, R turn turn)
    (value : α) :
    Keeps R (pure value : Handler α) :=
  hRefl

/- A failure keeps a reflexive relation. -/
theorem keeps_throw
    (hRefl : ∀ turn, R turn turn)
    (e : HandlerError) :
    Keeps R (throw e : Handler α) :=
  hRefl

/- Reading a part keeps a reflexive relation. -/
theorem keeps_read
    (hRefl : ∀ turn, R turn turn)
    (result : Except JsonError α) :
    Keeps R (read result) := by
  cases result with
  | ok value => exact keeps_pure hRefl value
  | error e => exact keeps_throw hRefl (.json e)

/- Looking at the server keeps a reflexive relation. -/
theorem keeps_server
    (hRefl : ∀ turn, R turn turn) :
    Keeps R server :=
  hRefl

/- Two pieces that keep a transitive relation keep it together. -/
theorem keeps_bind
    (hTrans : ∀ ⦃a b c : Turn⦄, R a b → R b c → R a c)
    {h : Handler α}
    {k : α → Handler β}
    (hFirst : Keeps R h)
    (hSecond : ∀ value, Keeps R (k value)) :
    Keeps R (h >>= k) := by
  intro turn
  have hStep := hFirst turn
  rw [runFrom_bind]
  cases hRun : h.runFrom turn with
  | mk result next =>
      rw [hRun] at hStep
      cases result with
      | ok value => exact hTrans hStep (hSecond value next)
      | error e => exact hStep

/- Sending a frame keeps a reflexive relation that events keep. -/
theorem keeps_send
    (hRefl : ∀ turn, R turn turn)
    {frame : Json}
    (hSent : ∀ turn : Turn, R turn (turn.note (.sent frame))) :
    Keeps R (send frame) := by
  intro turn
  by_cases hFrame : frame.isPrintable = true
  · rw [runFrom_send_of_isPrintable hFrame]
    exact hSent turn
  · rw [runFrom_send_of_not_isPrintable hFrame]
    exact hRefl turn

/- Making remarks keeps a relation that remarks keep. -/
theorem keeps_remarks
    (hRefl : ∀ turn, R turn turn)
    (hTrans : ∀ ⦃a b c : Turn⦄, R a b → R b c → R a c)
    (hRemarked :
      ∀ (r : Diagnostic) (turn : Turn),
        R turn (turn.note (.remarked r)))
    (remarks : List Diagnostic) :
    Keeps R (remarks.forM remark) := by
  induction remarks with
  | nil => exact keeps_pure hRefl ()
  | cons r rest ih =>
      exact keeps_bind hTrans (hRemarked r) (fun _ => ih)

end Handler

end Marginalia

import Marginalia.Proofs.Comment.Marks

/-
  This file is about texts that are changed in place, one byte at
  a time.  A step on a buffer asks for bytes by their index, and
  writes spaces over them; it fails when there is no such byte.

  What a step reads and writes lies between a front and a rest
  that it does not touch.  So the lemmas split the buffer at the
  index: the walk over a run succeeds, ends behind it, and the
  front and the rest stay as they are.

  Key definitions include:
    * `Buffer`
    * `Buffer.byteAt`, `Buffer.bytesAt`, `Buffer.clear`
    * `Buffer.standsAt`, `Buffer.textAt`, `Buffer.textBefore`
    * `Buffer.passUp`, `Buffer.passDown`
    * `Buffer.clearUp`, `Buffer.clearDown`
  The main statements are:
    * `Buffer.run_textAt`, `Buffer.run_textBefore`
    * `Buffer.run_passUp`, `Buffer.run_passDown`
    * `Buffer.run_clearUp`, `Buffer.run_clearDown`
-/

namespace Marginalia

------------------------------------------------------------
-- Steps on a Buffer
------------------------------------------------------------

/- A step that may change a text, and may fail. -/
abbrev Buffer :=
  StateT Bytes Option

namespace Buffer

open Marker

variable {α β : Type}

/- The byte at an index, if there is one. -/
def byteAt (i : Nat) : Buffer UInt8 :=
  fun s => s[i]?.map (fun b => (b, s))

/- The bytes from an index on, if there are as many. -/
def bytesAt (i n : Nat) : Buffer Bytes :=
  fun s =>
    if i + n ≤ s.length then some (s.slice i (i + n), s) else none

/- Write a space over a byte, unless it ends a line. -/
def clear (i : Nat) : Buffer Unit := do
  let b ← byteAt i
  if b ≠ Ascii.lf ∧ b ≠ Ascii.cr then
    modify (fun s => s.set i Ascii.space)

/- Write spaces over as many bytes. -/
def clearMany : Nat → Nat → Buffer Unit
| 0, _ => pure ()
| n + 1, i => do
    clear i
    clearMany n (i + 1)

/- The byte stands at the index, and that lies below the limit. -/
def standsAt (limit i : Nat) (b : UInt8) : Buffer Bool := do
  if i < limit then
    let found ← byteAt i
    pure (found == b)
  else pure false

/- The text stands at the index, and ends by the limit. -/
def textAt (limit i : Nat) (text : Bytes) : Buffer Bool := do
  if i + text.length ≤ limit then
    let found ← bytesAt i text.length
    pure (found == text)
  else pure false

/- The text ends at the index. -/
def textBefore (stop : Nat) (text : Bytes) : Buffer Bool := do
  if text.length ≤ stop then
    let found ← bytesAt (stop - text.length) text.length
    pure (found == text)
  else pure false

/- The first index up to the limit where the test fails. -/
def passUp (p : UInt8 → Bool) (limit i : Nat) : Buffer Nat := do
  if i < limit then
    let b ← byteAt i
    if p b then passUp p limit (i + 1) else pure i
  else pure i
termination_by limit - i

/- Such an index, with spaces over the bytes in front of it. -/
def clearUp (p : UInt8 → Bool) (limit i : Nat) : Buffer Nat := do
  if i < limit then
    let b ← byteAt i
    if p b then
      clear i
      clearUp p limit (i + 1)
    else pure i
  else pure i
termination_by limit - i

/- The index behind the last byte in front where the test fails. -/
def passDown (p : UInt8 → Bool) : Nat → Buffer Nat
| 0 => pure 0
| i + 1 => do
    let b ← byteAt i
    if p b then passDown p i else pure (i + 1)

/- Write spaces over the bytes in front, down to such an index. -/
def clearDown (p : UInt8 → Bool) : Nat → Buffer Unit
| 0 => pure ()
| i + 1 => do
    let b ← byteAt i
    if p b then
      clear i
      clearDown p i

/- A step that succeeds goes on with its result. -/
theorem run_bind_of_run
    {step : Buffer α}
    {f : α → Buffer β}
    {a : α}
    {s t : Bytes}
    (hRun : step.run s = some (a, t)) :
    (step >>= f).run s = (f a).run t := by
  rw [StateT.run_bind, hRun]
  rfl

------------------------------------------------------------
-- Single Bytes
------------------------------------------------------------

variable {limit i : Nat}
variable {front run rest : Bytes}
variable {p : UInt8 → Bool}

/- A byte that is there can be read. -/
theorem run_byteAt
    {b : UInt8}
    {s : Bytes}
    (hByte : s[i]? = some b) :
    (byteAt i).run s = some (b, s) := by
  simp [byteAt, StateT.run, hByte]

/- Behind the front comes the first byte of the rest. -/
theorem getElem?_front
    (b : UInt8)
    (rest : Bytes)
    (hIndex : i = front.length) :
    (front ++ b :: rest)[i]? = some b := by
  simp [hIndex]

/- One byte gives way, and no other byte is changed. -/
theorem run_clear
    {b : UInt8}
    (hByte : b ≠ Ascii.lf ∧ b ≠ Ascii.cr)
    (rest : Bytes)
    (hIndex : i = front.length) :
    (clear i).run (front ++ b :: rest) =
      some ((), front ++ Ascii.space :: rest) := by
  unfold clear
  rw [run_bind_of_run (run_byteAt (getElem?_front b rest hIndex)),
    if_pos hByte]
  subst hIndex
  simp [modify, modifyGet, MonadStateOf.modifyGet, StateT.modifyGet,
    StateT.run]

theorem run_clearMany
    {mark : Bytes}
    (hMark : ∀ b ∈ mark, b ≠ Ascii.lf ∧ b ≠ Ascii.cr)
    (rest : Bytes)
    (hIndex : i = front.length) :
    (clearMany mark.length i).run (front ++ mark ++ rest) =
      some ((), front ++ spaces mark ++ rest) := by
  induction mark generalizing i front with
  | nil => rfl
  | cons b mark ih =>
      rw [List.forall_mem_cons] at hMark
      have hIndex' : i + 1 = (front ++ [Ascii.space]).length := by
        simp [hIndex]
      have hOthers := ih hMark.2 hIndex'
      rw [List.length_cons, clearMany, List.append_assoc,
        List.cons_append,
        run_bind_of_run (run_clear hMark.1 (mark ++ rest) hIndex)]
      simpa using hOthers

/- Below the limit there is a byte to compare with. -/
theorem run_standsAt
    (b : UInt8)
    {s : Bytes}
    (hLimit : limit ≤ s.length) :
    (standsAt limit i b).run s =
      some (decide (i < limit) && s[i]? == some b, s) := by
  unfold standsAt
  split
  · next hInside =>
      have hByte :=
        List.getElem?_eq_getElem (Nat.lt_of_lt_of_le hInside hLimit)
      rw [run_bind_of_run (run_byteAt hByte), hByte,
        decide_eq_true hInside]
      rfl
  · next hOutside =>
      rw [decide_eq_false hOutside]
      rfl

------------------------------------------------------------
-- Texts
------------------------------------------------------------

/- The bytes between the front and the rest can be read. -/
theorem run_bytesAt
    (front found rest : Bytes) :
    (bytesAt front.length found.length).run (front ++ found ++ rest) =
      some (found, front ++ found ++ rest) := by
  simp [bytesAt, StateT.run, Bytes.slice]

/- A text is looked for at the start of what is behind the front. -/
theorem run_textAt
    {text : Bytes}
    {found : Bool}
    (hFound : text.isPrefixOf rest = found)
    (hIndex : i = front.length)
    (hLimit : limit = (front ++ rest).length) :
    (textAt limit i text).run (front ++ rest) =
      some (found, front ++ rest) := by
  subst hIndex hLimit hFound
  unfold textAt
  rw [List.length_append]
  split
  · next hFits =>
      obtain ⟨first, tail, rfl, hLength⟩ :
          ∃ first tail,
            rest = first ++ tail ∧ first.length = text.length :=
        ⟨_, _, (List.take_append_drop text.length rest).symm,
          List.length_take_of_le (Nat.le_of_add_le_add_left hFits)⟩
      have hSame : (first == text) = text.isPrefixOf (first ++ tail) := by
        rw [Bool.eq_iff_iff, beq_iff_eq, List.isPrefixOf_iff_prefix,
          List.prefix_iff_eq_take, List.take_left' hLength, eq_comm]
      rw [← hLength, ← List.append_assoc,
        run_bind_of_run (run_bytesAt front first tail), hSame]
      rfl
  · next hLong =>
      have hNot : text.isPrefixOf rest = false := by
        rw [Bool.eq_false_iff]
        exact fun hPrefix =>
          hLong
            (Nat.add_le_add_left
              (List.isPrefixOf_iff_prefix.mp hPrefix).length_le _)
      rw [hNot]
      rfl

/- A text is looked for at the end of the front. -/
theorem run_textBefore
    {text : Bytes}
    {found : Bool}
    (hFound : decide (text <:+ front) = found)
    (rest : Bytes) :
    (textBefore front.length text).run (front ++ rest) =
      some (found, front ++ rest) := by
  subst hFound
  unfold textBefore
  split
  · next hFits =>
      obtain ⟨before, last, rfl, hLength⟩ :
          ∃ before last,
            front = before ++ last ∧ last.length = text.length :=
        ⟨_, _,
          (List.take_append_drop (front.length - text.length)
            front).symm,
          by rw [List.length_drop, Nat.sub_sub_self hFits]⟩
      have hSame : (last == text) = decide (text <:+ before ++ last) := by
        rw [Bool.eq_iff_iff, beq_iff_eq, decide_eq_true_iff,
          List.suffix_iff_eq_drop, ← hLength, List.length_append,
          Nat.add_sub_cancel, List.drop_left, eq_comm]
      rw [← hLength, List.length_append, Nat.add_sub_cancel,
        run_bind_of_run (run_bytesAt before last rest), hSame]
      rfl
  · next hLong =>
      have hNot : ¬ text <:+ front := fun hSuffix =>
        hLong hSuffix.length_le
      rw [decide_eq_false hNot]
      rfl

------------------------------------------------------------
-- Walks
------------------------------------------------------------

/- Passing over a run ends behind it, also if the limit is there. -/
theorem run_passUp
    {core : Bytes}
    (hRun : ∀ b ∈ run, p b = true)
    (hCore : ∀ b ∈ core.head?, p b = false)
    (rest : Bytes)
    (hIndex : i = front.length)
    (hLimit : limit = (front ++ run ++ core).length) :
    (passUp p limit i).run (front ++ run ++ core ++ rest) =
      some (i + run.length, front ++ run ++ core ++ rest) := by
  induction run generalizing i front with
  | nil =>
      rw [passUp]
      cases core with
      | nil =>
          rw [if_neg (by simp [hIndex, hLimit])]
          rfl
      | cons b core =>
          rw [if_pos (by simp [hIndex, hLimit]), List.append_nil,
            List.append_assoc, List.cons_append,
            run_bind_of_run
              (run_byteAt (getElem?_front b (core ++ rest) hIndex)),
            hCore b rfl]
          rfl
  | cons b run ih =>
      rw [List.forall_mem_cons] at hRun
      have hIndex' : i + 1 = (front ++ [b]).length := by
        simp [hIndex]
      have hLimit' : limit = (front ++ [b] ++ run ++ core).length := by
        simp [hLimit]
      have hByte :=
        run_byteAt (getElem?_front b (run ++ core ++ rest) hIndex)
      have hNext := ih hRun.2 hIndex' hLimit'
      rw [passUp, if_pos (by simp [hIndex, hLimit])]
      simp only [List.append_assoc, List.cons_append] at hByte hNext ⊢
      rw [run_bind_of_run hByte, hRun.1]
      simpa [Nat.add_assoc, Nat.add_comm 1] using hNext

/- At the start of a text there is no front. -/
theorem run_passUp_start
    (hRun : ∀ b ∈ run, p b = true)
    (hRest : ∀ b ∈ rest.head?, p b = false) :
    (passUp p (run ++ rest).length 0).run (run ++ rest) =
      some (run.length, run ++ rest) := by
  have hIndex : 0 = ([] : Bytes).length := rfl
  have hPass := run_passUp hRun hRest [] hIndex rfl
  rwa [List.append_nil, List.nil_append, Nat.zero_add] at hPass

/- Clearing a run ends behind it. -/
theorem run_clearUp
    (hRun : ∀ b ∈ run, p b = true ∧ b ≠ Ascii.lf ∧ b ≠ Ascii.cr)
    (hRest : ∀ b ∈ rest.head?, p b = false)
    (hIndex : i = front.length)
    (hLimit : limit = (front ++ run ++ rest).length) :
    (clearUp p limit i).run (front ++ run ++ rest) =
      some (i + run.length, front ++ spaces run ++ rest) := by
  induction run generalizing i front with
  | nil =>
      rw [clearUp]
      cases rest with
      | nil =>
          rw [if_neg (by simp [hIndex, hLimit])]
          rfl
      | cons b rest =>
          rw [if_pos (by simp [hIndex, hLimit]), List.append_nil,
            run_bind_of_run (run_byteAt (getElem?_front b rest hIndex)),
            hRest b rfl, spaces_nil, List.append_nil]
          rfl
  | cons b run ih =>
      rw [List.forall_mem_cons] at hRun
      have hIndex' : i + 1 = (front ++ [Ascii.space]).length := by
        simp [hIndex]
      have hLimit' :
          limit = (front ++ [Ascii.space] ++ run ++ rest).length := by
        simp [hLimit]
      have hNext := ih hRun.2 hIndex' hLimit'
      rw [clearUp, if_pos (by simp [hIndex, hLimit]), List.append_assoc,
        List.cons_append,
        run_bind_of_run
          (run_byteAt (getElem?_front b (run ++ rest) hIndex)),
        hRun.1.1, if_pos rfl,
        run_bind_of_run (run_clear hRun.1.2 (run ++ rest) hIndex)]
      simpa [Nat.add_assoc, Nat.add_comm 1] using hNext

/- Passing over a run backwards ends where it begins. -/
theorem run_passDown
    (hRun : ∀ b ∈ run, p b = true)
    (hFront : ∀ b ∈ front.getLast?, p b = false)
    (rest : Bytes) :
    (passDown p (front ++ run).length).run (front ++ run ++ rest) =
      some (front.length, front ++ run ++ rest) := by
  induction run using List.reverseRecOn generalizing rest with
  | nil =>
      rcases List.eq_nil_or_concat' front with rfl | ⟨before, b, rfl⟩
      · rfl
      · rw [List.append_nil, List.length_append, List.length_singleton,
          passDown, List.append_assoc, List.singleton_append,
          run_bind_of_run (run_byteAt (getElem?_front b rest rfl)),
          hFront b (by simp)]
        rfl
  | append_singleton run b ih =>
      have hOthers : ∀ c ∈ run, p c = true := fun c hByte =>
        hRun c (List.mem_append_left _ hByte)
      have hNext := ih hOthers (b :: rest)
      rw [← List.append_assoc, List.length_append, List.length_singleton,
        passDown, List.append_assoc _ [b], List.singleton_append,
        run_bind_of_run (run_byteAt (getElem?_front b rest rfl)),
        hRun b (by simp)]
      exact hNext

/- Clearing a run backwards changes nothing in front of it. -/
theorem run_clearDown
    (hRun : ∀ b ∈ run, p b = true ∧ b ≠ Ascii.lf ∧ b ≠ Ascii.cr)
    (hFront : ∀ b ∈ front.getLast?, p b = false)
    (rest : Bytes) :
    (clearDown p (front ++ run).length).run (front ++ run ++ rest) =
      some ((), front ++ spaces run ++ rest) := by
  induction run using List.reverseRecOn generalizing rest with
  | nil =>
      rcases List.eq_nil_or_concat' front with rfl | ⟨before, b, rfl⟩
      · rfl
      · rw [List.append_nil, List.length_append, List.length_singleton,
          clearDown, List.append_assoc, List.singleton_append,
          run_bind_of_run (run_byteAt (getElem?_front b rest rfl)),
          hFront b (by simp)]
        simp
  | append_singleton run b ih =>
      have hLast := hRun b (by simp)
      have hOthers :
          ∀ c ∈ run, p c = true ∧ c ≠ Ascii.lf ∧ c ≠ Ascii.cr :=
        fun c hByte => hRun c (List.mem_append_left _ hByte)
      have hNext := ih hOthers (Ascii.space :: rest)
      rw [← List.append_assoc, List.length_append, List.length_singleton,
        clearDown, List.append_assoc _ [b], List.singleton_append,
        run_bind_of_run (run_byteAt (getElem?_front b rest rfl)),
        hLast.1, if_pos rfl, run_bind_of_run (run_clear hLast.2 rest rfl),
        hNext, spaces_append]
      simp

end Buffer

end Marginalia

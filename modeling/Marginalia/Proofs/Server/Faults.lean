import Marginalia.Proofs.Server.Order

/-
  This file proves what becomes of the frames of a stream when
  there are faulty ones among them.

  A body that is not JSON is passed over.  A header without a
  length, or with one that is zero or no number, ends the input:
  nothing that comes after it is read.  A body with a number that
  is too large, or a header with a length that no memory can
  hold, which is what most negative numbers come to, cannot be
  read: it is passed over while an answer is waited for, and
  otherwise crashes the server.

  If there are only correct frames, their messages are taken up
  in order, up to an exit or to such a crash.

  Key definitions include:
    * `Frame.Head`, `Frame.Head.ofText`
    * `Frame.Part`, `Frame.Part.IsUnreadable`
    * `Session.Endures`, `Session.StopsAt`, `Session.ReadsUpTo`
  The main statements are:
    * `Frame.parseLength?_minus_ofNat`
    * `Incoming.ofStream_parts`
    * `Session.run_inOrder`
    * `Session.run_parts`
    * `Session.handled_run_closes`
-/

namespace Marginalia

namespace Frame

------------------------------------------------------------
-- Headers without Bodies
------------------------------------------------------------

/-
  A header that no body comes after: it says no length, or one
  that cannot be held.
-/
structure Head where
  lines : List Bytes
  blank : Bytes
  lf_not_mem : ∀ line ∈ lines, Ascii.lf ∉ line
  line_ne_nil : ∀ line ∈ lines, Document.dropReturn line ≠ []
  lf_not_mem_blank : Ascii.lf ∉ blank
  blank_eq_nil : Document.dropReturn blank = []
  length_faulty :
    (Header.ofLines lines).length = 0 ∨
      maxLength < (Header.ofLines lines).length

namespace Head

/- What a header says. -/
def header (head : Head) : Header :=
  Header.ofLines head.lines

/- The bytes of a header. -/
def bytes (head : Head) : Bytes :=
  linesOf head.lines ++ head.blank ++ [Ascii.lf]

/- A header is read to its end. -/
theorem readHeader_bytes
    (head : Head)
    (rest : Bytes) :
    readHeader Header.blank (head.bytes ++ rest) =
      (head.header, some rest) := by
  have hRead :=
    readHeader_linesOf head.lf_not_mem_blank head.blank_eq_nil rest
      head.lines Header.blank head.lf_not_mem head.line_ne_nil
  have hBytes :
      head.bytes ++ rest =
        linesOf head.lines ++ head.blank ++ Ascii.lf :: rest := by
    simp [bytes]
  rw [hBytes]
  exact hRead

end Head

/- None of the lines of a header is about the length. -/
theorem Header.length_ofLines_of_missing
    (lines : List Bytes)
    (hLines :
      ∀ line ∈ lines,
        lengthField.isPrefixOf (Document.dropReturn line) = false) :
    (Header.ofLines lines).length = 0 := by
  rw [Header.ofLines,
    Header.foldl_addLine_of_not_length lines hLines]
  rfl

/- The last line of a header gives its length; a faulty one is zero. -/
theorem Header.length_ofLines_concat
    (lines : List Bytes)
    (text : Bytes) :
    (Header.ofLines
          (lines ++ [lengthField ++ text ++ [Ascii.cr]])).length =
      (parseLength? text).getD 0 := by
  have hPrefix : lengthField.isPrefixOf (lengthField ++ text) = true := by
    simp
  have hDrop :
      (lengthField ++ text).drop lengthField.length = text := by
    simp
  rw [Header.ofLines, List.foldl_append, List.foldl_cons, List.foldl_nil,
    dropReturn_append, Header.addLine, if_pos hPrefix, hDrop]
  cases parseLength? text <;> rfl

/- A negative number counts down from the size of the word. -/
theorem parseLength?_minus_ofNat
    {n : Nat}
    (hPositive : 0 < n)
    (hFits : n < Word.size64) :
    parseLength? (Ascii.space :: Ascii.minus :: Decimal.ofNat n) =
      some (Word.size64 - n) := by
  have hTake :
      (Decimal.ofNat n).takeWhile Ascii.isDigit = Decimal.ofNat n :=
    List.takeWhile_eq_self_iff.mpr
      (fun b hMember => Decimal.isDigit_of_mem_ofNat hMember)
  have hDrop :
      (Ascii.space :: Ascii.minus :: Decimal.ofNat n).dropWhile
          Ascii.isSpace =
        Ascii.minus :: Decimal.ofNat n :=
    rfl
  have hNonempty : (Decimal.ofNat n).isEmpty = false := by
    simpa using Decimal.ofNat_ne_nil n
  have hLess : Word.size64 - n < Word.size64 := by omega
  have hSigned :
      parseLength? (Ascii.space :: Ascii.minus :: Decimal.ofNat n) =
        let digits := (Decimal.ofNat n).takeWhile Ascii.isDigit
        let n := Decimal.value digits
        if digits.isEmpty || Word.size64 ≤ n then none
        else some ((Word.size64 - n) % Word.size64) := by
    unfold parseLength?
    rw [hDrop]
    rfl
  rw [hSigned]
  simp only [hTake, Decimal.value_ofNat, hNonempty, Bool.false_or,
    decide_eq_true_eq]
  rw [if_neg (by omega), Nat.mod_eq_of_lt hLess]

/- A line that is nothing but a return is empty. -/
theorem dropReturn_return : Document.dropReturn [Ascii.cr] = [] :=
  rfl

theorem lf_not_mem_return : Ascii.lf ∉ [Ascii.cr] := by
  decide

/- A header with one line, which says a length that is faulty. -/
def Head.ofText
    (text : Bytes)
    (hText : Ascii.lf ∉ text)
    (hFaulty :
      (parseLength? text).getD 0 = 0 ∨
        maxLength < (parseLength? text).getD 0) : Head where
  lines := [lengthField ++ text ++ [Ascii.cr]]
  blank := [Ascii.cr]
  lf_not_mem := by
    have hField : Ascii.lf ∉ lengthField := by decide
    have hReturn : Ascii.lf ≠ Ascii.cr := by decide
    simp [hField, hText, hReturn]
  line_ne_nil := by
    have hField : lengthField ≠ [] := by decide
    intro line hLine
    rw [List.mem_singleton.mp hLine, dropReturn_append]
    simp [hField]
  lf_not_mem_blank := lf_not_mem_return
  blank_eq_nil := dropReturn_return
  length_faulty := by
    rw [← List.nil_append [lengthField ++ text ++ [Ascii.cr]],
      Header.length_ofLines_concat]
    exact hFaulty

/-
  A header with a negative length.  The size of the word less
  this number of bytes is more than can be held.
-/
def Head.negative
    (n : Nat)
    (hPositive : 0 < n)
    (hLarge : n < Word.size64 - maxLength) : Head :=
  .ofText (Ascii.space :: Ascii.minus :: Decimal.ofNat n)
    (by
      have hDigits := lf_not_mem_ofNat n
      have hSpace : Ascii.lf ≠ Ascii.space := by decide
      have hMinus : Ascii.lf ≠ Ascii.minus := by decide
      simp [hDigits, hSpace, hMinus])
    (by
      right
      rw [parseLength?_minus_ofNat hPositive (by omega),
        Option.getD_some]
      omega)

------------------------------------------------------------
-- Parts of Streams
------------------------------------------------------------

/- A number in the body of a frame is too large. -/
def Written.Overflows (frame : Written) : Prop :=
  Json.parse frame.body = .error .overflow

/- A part of a stream: a correct frame, or a header without a body. -/
inductive Part where
| whole (frame : Written)
| bare (head : Head)

namespace Part

/- The bytes of a part. -/
def bytes : Part → Bytes
| .whole frame => frame.bytes
| .bare head => head.bytes

/- What the header of a part says. -/
def header : Part → Header
| .whole frame => frame.header
| .bare head => head.header

/- The message of a part, if there is one. -/
def message? : Part → Option Json
| .whole frame => Json.parse? frame.body
| .bare _ => none

/- A header without a length ends the input. -/
def Closes : Part → Prop
| .whole _ => False
| .bare head => head.header.length = 0

/-
  A part that cannot be read: a number in its body is too large,
  or the length in its header is.
-/
def IsUnreadable : Part → Prop
| .whole frame => frame.Overflows
| .bare head => maxLength < head.header.length

end Part

end Frame

------------------------------------------------------------
-- What Arrives
------------------------------------------------------------

namespace Incoming

open Marginalia.Frame (Part)

/- What arrives of a part after the remarks on its header. -/
def ofContent : Part → Incoming
| .whole frame => ofBody frame.body
| .bare _ => .unreadable .overlong

/- What arrives with a part that does not end the input. -/
def ofPart (part : Part) : List Incoming :=
  List.replicate part.header.faults .faultyLength ++ [ofContent part]

/- The message of a part is the only one that arrives with it. -/
theorem messages_ofPart
    (part : Part) :
    (ofPart part).filterMap message? = part.message?.toList := by
  have hContent : (ofContent part).message? = part.message? := by
    cases part with
    | whole frame => exact Session.message?_ofBody frame.body
    | bare head => rfl
  rw [ofPart, List.filterMap_append, Session.messages_faultyLength,
    List.nil_append, List.filterMap_cons, hContent]
  cases part.message? <;> rfl

/- So it is for many parts. -/
theorem messages_ofParts
    (parts : List Part) :
    (parts.flatMap ofPart).filterMap message? =
      parts.filterMap Part.message? := by
  induction parts with
  | nil => rfl
  | cons part parts ih =>
      rw [List.flatMap_cons, List.filterMap_append, ih,
        messages_ofPart]
      cases hMessage : part.message? <;> simp [hMessage]

/- Of a part that cannot be read this is what arrives. -/
theorem exists_fault_of_isUnreadable
    {part : Part}
    (hUnreadable : part.IsUnreadable) :
    ∃ fault, ofContent part = .unreadable fault := by
  cases part with
  | whole frame =>
      have hOverflows : Json.parse frame.body = .error .overflow :=
        hUnreadable
      refine ⟨.overflow, ?_⟩
      rw [ofContent, ofBody, hOverflows]
  | bare head => exact ⟨.overlong, rfl⟩

/- It arrives only with such a part. -/
theorem isUnreadable_of_content
    {part : Part}
    {fault : ReadFault}
    (hOpen : ¬ part.Closes)
    (hContent : ofContent part = .unreadable fault) :
    part.IsUnreadable := by
  cases part with
  | whole frame =>
      rw [ofContent, ofBody] at hContent
      split at hContent
      · cases hContent
      · cases hContent
      · next hOverflows => exact hOverflows
  | bare head => exact head.length_faulty.resolve_left hOpen

/- A stream that begins with a part that does not end it. -/
theorem ofStream_part
    {part : Part}
    (hOpen : ¬ part.Closes)
    (rest : Bytes) :
    ofStream (part.bytes ++ rest) = ofPart part ++ ofStream rest := by
  cases part with
  | whole frame => exact ofStream_append frame rest
  | bare head =>
      have hLong : Frame.maxLength < head.header.length :=
        head.length_faulty.resolve_left hOpen
      have hDecode :
          Frame.decode (head.bytes ++ rest) =
            (.overlong rest, head.header.faults) :=
        Frame.decodeWithin_overlong (head.readHeader_bytes rest) hLong
      rw [Part.bytes, ofStream_of_overlong hDecode, ofPart,
        List.append_assoc]
      rfl

/- Of a stream that begins with a part that ends it nothing else arrives. -/
theorem ofStream_closes
    {part : Part}
    (hCloses : part.Closes)
    (rest : Bytes) :
    ∃ n, ofStream (part.bytes ++ rest) =
      List.replicate n .faultyLength := by
  cases part with
  | whole frame => exact hCloses.elim
  | bare head =>
      have hDecode :
          Frame.decode (head.bytes ++ rest) =
            (.closed, head.header.faults) :=
        Frame.decodeWithin_closed (head.readHeader_bytes rest) hCloses
      exact ⟨head.header.faults, ofStream_of_closed hDecode⟩

/-
  Of the parts of a stream those arrive that come before the
  first one that ends the input.
-/
theorem ofStream_parts
    (parts : List Part) :
    ∃ read rest n,
      parts = read ++ rest ∧
        (∀ part ∈ read, ¬ part.Closes) ∧
          (∀ part ∈ rest.head?, part.Closes) ∧
            ofStream (parts.flatMap Part.bytes) =
              read.flatMap ofPart ++
                List.replicate n .faultyLength := by
  induction parts with
  | nil => exact ⟨[], [], 0, rfl, by simp, by simp, ofStream_nil⟩
  | cons part parts ih =>
      by_cases hCloses : part.Closes
      · rcases ofStream_closes hCloses (parts.flatMap Part.bytes) with
          ⟨n, hStream⟩
        refine ⟨[], part :: parts, n, rfl, by simp, ?_, hStream⟩
        intro first hFirst
        rw [List.head?_cons, Option.mem_some_iff] at hFirst
        rw [← hFirst]
        exact hCloses
      · rcases ih with ⟨read, rest, n, hParts, hRead, hRest, hStream⟩
        refine
          ⟨part :: read, rest, n, congrArg (part :: ·) hParts, ?_,
            hRest, ?_⟩
        · intro other hOther
          rcases List.mem_cons.mp hOther with hSame | hLater
          · rw [hSame]
            exact hCloses
          · exact hRead other hLater
        · rw [List.flatMap_cons, ofStream_part hCloses, hStream,
            List.flatMap_cons, List.append_assoc]

/- When a part cannot be read, what arrives is cut in two by it. -/
theorem exists_fault_of_split
    {part : Part}
    (hUnreadable : part.IsUnreadable)
    (sooner later : List Part) :
    ∃ fault,
      (sooner ++ part :: later).flatMap ofPart =
        (sooner.flatMap ofPart ++
            List.replicate part.header.faults .faultyLength) ++
          .unreadable fault :: later.flatMap ofPart := by
  rcases exists_fault_of_isUnreadable hUnreadable with
    ⟨fault, hContent⟩
  refine ⟨fault, ?_⟩
  rw [List.flatMap_append, List.flatMap_cons, ofPart, hContent]
  simp

/- Something that is no remark on a length comes after such remarks. -/
theorem exists_eq_replicate_append
    {item : Incoming}
    {after tail : List Incoming}
    (hItem : item ≠ .faultyLength)
    (n : Nat) :
    ∀ before : List Incoming,
      List.replicate n .faultyLength ++ tail =
          before ++ item :: after →
        ∃ more,
          before = List.replicate n .faultyLength ++ more ∧
            tail = more ++ item :: after := by
  induction n with
  | zero =>
      intro before hSplit
      exact ⟨before, rfl, hSplit⟩
  | succ n ih =>
      intro before hSplit
      rw [List.replicate_succ, List.cons_append] at hSplit
      cases before with
      | nil => exact absurd (List.cons.inj hSplit).1.symm hItem
      | cons first before =>
          have hBoth := List.cons.inj hSplit
          rcases ih before hBoth.2 with ⟨more, hBefore, hTail⟩
          refine ⟨more, ?_, hTail⟩
          rw [List.replicate_succ, List.cons_append, hBefore, hBoth.1]

/-
  What cannot be read arrives with one of the parts, after the
  parts before it and the remarks on its header.  The induction
  is on the parts.
-/
theorem exists_part_of_split
    {n : Nat}
    {fault : ReadFault}
    {after : List Incoming}
    (parts : List Part) :
    ∀ before : List Incoming,
      parts.flatMap ofPart ++ List.replicate n .faultyLength =
          before ++ .unreadable fault :: after →
        ∃ sooner part later,
          parts = sooner ++ part :: later ∧
            ofContent part = .unreadable fault ∧
              before =
                sooner.flatMap ofPart ++
                  List.replicate part.header.faults .faultyLength := by
  have hItem : Incoming.unreadable fault ≠ .faultyLength := by simp
  induction parts with
  | nil =>
      intro before hSplit
      have hMember :
          Incoming.unreadable fault ∈
            List.replicate n faultyLength := by
        rw [List.flatMap_nil, List.nil_append] at hSplit
        rw [hSplit]
        exact List.mem_append_right before List.mem_cons_self
      exact absurd (List.eq_of_mem_replicate hMember) hItem
  | cons part parts ih =>
      intro before hSplit
      rw [List.flatMap_cons, ofPart, List.append_assoc,
        List.append_assoc] at hSplit
      rcases
          exists_eq_replicate_append hItem part.header.faults before
            hSplit with
        ⟨more, hBefore, hMore⟩
      cases more with
      | nil =>
          refine ⟨[], part, parts, rfl, (List.cons.inj hMore).1, ?_⟩
          rw [hBefore, List.append_nil]
          rfl
      | cons first more =>
          have hBoth := List.cons.inj hMore
          rcases ih more hBoth.2 with
            ⟨sooner, other, later, hParts, hContent, hSooner⟩
          refine
            ⟨part :: sooner, other, later,
              congrArg (part :: ·) hParts, hContent, ?_⟩
          rw [hBefore, hSooner, List.flatMap_cons, ofPart, hBoth.1]
          simp

end Incoming

------------------------------------------------------------
-- Sessions
------------------------------------------------------------

namespace Session

open Marginalia.Frame (Part)

variable {files : Files}
variable {start turn : Turn}

/- Remarks on lengths do not change the server. -/
theorem server_takeIn_faultyLength
    (files : Files)
    (n : Nat) :
    ∀ turn : Turn,
      (turn.takeIn files (List.replicate n .faultyLength)).server =
        turn.server := by
  induction n with
  | zero =>
      intro turn
      rfl
  | succ n ih =>
      intro turn
      have hFirst :
          (turn.receive files .faultyLength).server = turn.server := by
        unfold Turn.receive
        split <;> rfl
      rw [List.replicate_succ, Turn.takeIn, List.foldl_cons]
      exact (ih _).trans hFirst

/- An idle server is idle after remarks on lengths. -/
theorem idle_takeIn_faultyLength
    (files : Files)
    (turn : Turn)
    (before : List Incoming)
    (n : Nat) :
    (turn.takeIn files
        (before ++ List.replicate n .faultyLength)).Idle ↔
      (turn.takeIn files before).Idle := by
  rw [takeIn_append, Turn.Idle, Turn.Idle, server_takeIn_faultyLength]

/- At its end a session that is over stays as it is. -/
theorem finish_of_isOver
    (hOver : turn.server.isOver = true)
    (files : Files) :
    turn.finish files = turn := by
  rw [Turn.finish, if_pos hOver]

/- A part that cannot be read crashes an idle server for good. -/
theorem crashed_takeIn_of_idle
    {part : Part}
    {sooner : List Part}
    (hIdle :
      (start.takeIn files (sooner.flatMap Incoming.ofPart)).Idle)
    (hUnreadable : part.IsUnreadable)
    (later : List Part)
    (more : List Incoming) :
    (start.takeIn files
        ((sooner ++ part :: later).flatMap Incoming.ofPart ++
          more)).server.crashed =
      true := by
  rcases Incoming.exists_fault_of_split hUnreadable sooner later with
    ⟨fault, hSplit⟩
  rw [hSplit, List.append_assoc, List.cons_append, takeIn_of_idle]
  · rfl
  · exact (idle_takeIn_faultyLength files start _ _).mpr hIdle

/-
  Whenever one of the parts cannot be read, the server is not
  idle when it arrives: it waits for an answer, or an exit was
  taken up.
-/
def Endures
    (files : Files)
    (start : Turn)
    (parts : List Part) : Prop :=
  ∀ sooner part later,
    parts = sooner ++ part :: later →
      part.IsUnreadable →
        ¬ (start.takeIn files (sooner.flatMap Incoming.ofPart)).Idle

/-
  Where a session stops reading after some parts: at the end of
  the stream, at a header without a length, or, with a crash, at
  a part that cannot be read and finds the server idle.
-/
inductive StopsAt
    (files : Files)
    (start turn : Turn)
    (read : List Part) : List Part → Prop where
| nothing
    (hReturns : turn.server.crashed = false) :
    StopsAt files start turn read []
| closes
    {part : Part}
    {rest : List Part}
    (hReturns : turn.server.crashed = false)
    (hCloses : part.Closes) :
    StopsAt files start turn read (part :: rest)
| crashes
    {part : Part}
    {rest : List Part}
    (hCrashed : turn.server.crashed = true)
    (hGoesOn : (handled turn).any Json.isExit = false)
    (hUnreadable : part.IsUnreadable)
    (hIdle :
      (start.takeIn files (read.flatMap Incoming.ofPart)).Idle) :
    StopsAt files start turn read (part :: rest)

/-
  What a session reads of the parts of a stream, and what becomes
  of their messages.
-/
structure ReadsUpTo
    (files : Files)
    (start turn : Turn)
    (read rest : List Part)
    (arrivals : List Arrival) : Prop where
  goesOn : ∀ part ∈ read, ¬ part.Closes
  endures : Endures files start read
  stopsAt : StopsAt files start turn read rest
  messages_eq :
    arrivals.map Arrival.message = read.filterMap Part.message?
  answers_eq : answers turn = Arrival.taken arrivals
  handled_eq : handled turn = upToExit (Arrival.passed arrivals)
  shutdown_eq :
    turn.server.shutdown = (handled turn).any Json.isShutdown

/- A session that has not crashed has endured what it has read. -/
theorem endures_of_crashed_eq
    {parts : List Part}
    {more : List Incoming}
    (hReturns :
      (start.takeIn files
          (parts.flatMap Incoming.ofPart ++ more)).server.crashed =
        false) :
    Endures files start parts := by
  intro sooner part later hParts hUnreadable hIdle
  have hCrashed :=
    crashed_takeIn_of_idle hIdle hUnreadable later more
  rw [← hParts] at hCrashed
  exact Bool.noConfusion (hReturns.symm.trans hCrashed)

/- The end of the input does not undo a crash. -/
theorem crashed_of_crashed_finish
    (hReturns : (turn.finish files).server.crashed = false) :
    turn.server.crashed = false := by
  cases hCrashed : turn.server.crashed with
  | false => rfl
  | true =>
      have hOver : turn.server.isOver = true := by
        rw [Server.isOver, hCrashed]
        exact Bool.or_true _
      rw [finish_of_isOver hOver, hCrashed] at hReturns
      exact hReturns

/- The messages of some parts, of which remarks on lengths are none. -/
theorem messages_parts
    (parts : List Part)
    (n : Nat) :
    (parts.flatMap Incoming.ofPart ++
          List.replicate n Incoming.faultyLength).filterMap
        Incoming.message? =
      parts.filterMap Part.message? := by
  rw [List.filterMap_append, messages_faultyLength, List.append_nil,
    Incoming.messages_ofParts]

/- A session that takes in all that arrives reads up to its end. -/
theorem readsUpTo_of_between
    {read rest : List Part}
    {arrivals : List Arrival}
    {n : Nat}
    (hGoesOn : ∀ part ∈ read, ¬ part.Closes)
    (hRest : ∀ part ∈ rest.head?, part.Closes)
    (hMessages :
      arrivals.map Arrival.message =
        (read.flatMap Incoming.ofPart ++
            List.replicate n Incoming.faultyLength).filterMap
          Incoming.message?)
    (hTurn :
      turn =
        (start.takeIn files
            (read.flatMap Incoming.ofPart ++
              List.replicate n .faultyLength)).finish files)
    (hWaiting : turn.server.waiting = none)
    (hBetween : Between arrivals turn) :
    ReadsUpTo files start turn read rest arrivals := by
  have hOrder := hBetween.inOrder
  have hReturns := hOrder.crashed_eq
  refine
    ⟨hGoesOn, ?_, ?_, ?_, hOrder.answers_eq,
      handled_of_between hBetween hWaiting, hOrder.shutdown_eq⟩
  · rw [hTurn] at hReturns
    exact endures_of_crashed_eq (crashed_of_crashed_finish hReturns)
  · cases rest with
    | nil => exact .nothing hReturns
    | cons part rest => exact .closes hReturns (hRest part rfl)
  · rw [hMessages, messages_parts]

/-
  A session that crashes reads up to the part that cannot be read
  and finds it idle.
-/
theorem readsUpTo_crash
    {part : Part}
    {sooner rest : List Part}
    {arrivals : List Arrival}
    {before : List Incoming}
    (hGoesOn : ∀ other ∈ sooner, ¬ other.Closes)
    (hUnreadable : part.IsUnreadable)
    (hBefore :
      before =
        sooner.flatMap Incoming.ofPart ++
          List.replicate part.header.faults .faultyLength)
    (hMessages :
      arrivals.map Arrival.message =
        before.filterMap Incoming.message?)
    (hIdle : (start.takeIn files before).Idle)
    (hBetween : Between arrivals (start.takeIn files before)) :
    ReadsUpTo files start (start.takeIn files before).crash sooner
      (part :: rest) arrivals := by
  have hOrder := hBetween.inOrder
  have hHandled := handled_of_between hBetween hIdle.1
  have hNoExit :
      (handled (start.takeIn files before)).any Json.isExit = false := by
    rw [← hOrder.exited_eq, ← isOver_eq_exited hOrder]
    exact hIdle.2
  refine
    ⟨hGoesOn, ?_, .crashes rfl hNoExit hUnreadable ?_, ?_,
      hOrder.answers_eq, hHandled, hOrder.shutdown_eq⟩
  · have hReturns := hOrder.crashed_eq
    rw [hBefore] at hReturns
    exact endures_of_crashed_eq hReturns
  · rw [hBefore] at hIdle
    exact (idle_takeIn_faultyLength files start _ _).mp hIdle
  · rw [hMessages, hBefore, messages_parts]

/- Every session reads the parts of its stream up to some part. -/
theorem exists_readsUpTo_run
    (engine : BoundedEngine)
    (files : Files)
    (descriptors : List Descriptor)
    (parts : List Part) :
    let start : Turn := ⟨Server.create engine descriptors, []⟩
    ∃ read rest arrivals,
      parts = read ++ rest ∧
        ReadsUpTo files start
          (run files start.server
            (Incoming.ofStream (parts.flatMap Part.bytes)))
          read rest arrivals := by
  intro start
  rcases Incoming.ofStream_parts parts with
    ⟨read, rest, n, hParts, hGoesOn, hRest, hStream⟩
  rcases
      takenIn_run engine files descriptors
        (Incoming.ofStream (parts.flatMap Part.bytes)) with
    ⟨arrivals,
      ⟨hMessages, hBetween⟩ |
        ⟨before, fault, after, hIncoming, hMessages, hBetween, hIdle,
          hTurn⟩⟩
  · have hSound : Turn.Sound (fun _ => True) start :=
      Turn.sound_create (fun _ => True) engine descriptors
    rw [hStream] at hMessages hBetween ⊢
    exact
      ⟨read, rest, arrivals, hParts,
        readsUpTo_of_between hGoesOn hRest hMessages rfl
          (waiting_run hSound (fun _ _ => trivial) files) hBetween⟩
  · rw [hStream] at hIncoming
    rcases Incoming.exists_part_of_split read before hIncoming with
      ⟨sooner, part, later, hRead, hContent, hBefore⟩
    rw [hRead] at hParts hGoesOn
    have hUnreadable :=
      Incoming.isUnreadable_of_content
        (hGoesOn part
          (List.mem_append_right sooner List.mem_cons_self))
        hContent
    refine ⟨sooner, part :: (later ++ rest), arrivals, ?_, ?_⟩
    · rw [hParts, List.append_assoc]
      rfl
    · rw [hTurn]
      exact
        readsUpTo_crash
          (fun other hOther =>
            hGoesOn other (List.mem_append_left _ hOther))
          hUnreadable hBefore hMessages hIdle hBetween

/-
  The frames of a stream are handled in order, those whose
  bodies are not JSON being passed over, up to the first header
  without a length.  A part that cannot be read crashes the
  server if it is idle, and then nothing else is read.  If it is
  not, the part is passed over.
-/
theorem run_parts
    (engine : BoundedEngine)
    (files : Files)
    (descriptors : List Descriptor)
    (parts : List Part) :
    let start : Turn := ⟨Server.create engine descriptors, []⟩
    let turn :=
      run files start.server
        (Incoming.ofStream (parts.flatMap Part.bytes))
    ∃ (read rest : List Part) (arrivals : List Arrival),
      parts = read ++ rest ∧
        (∀ part ∈ read, ¬ part.Closes) ∧
          Endures files start read ∧
            StopsAt files start turn read rest ∧
              arrivals.map Arrival.message =
                  read.filterMap Part.message? ∧
                answers turn = Arrival.taken arrivals ∧
                  handled turn = upToExit (Arrival.passed arrivals) ∧
                    AnswersAwaited turn.events ∧
                      turn.server.exitCode =
                        if (handled turn).any Json.isShutdown then 0
                        else 1 := by
  intro start turn
  rcases exists_readsUpTo_run engine files descriptors parts with
    ⟨read, rest, arrivals, hParts, hReads⟩
  refine
    ⟨read, rest, arrivals, hParts, hReads.goesOn, hReads.endures,
      hReads.stopsAt, hReads.messages_eq, hReads.answers_eq,
      hReads.handled_eq,
      answersAwaited_run engine files descriptors _, ?_⟩
  rw [Server.exitCode, hReads.shutdown_eq]

/-
  After a header without a length nothing is handled, whatever
  comes after it.
-/
theorem handled_run_closes
    {part : Part}
    (hCloses : part.Closes)
    (rest : Bytes)
    (engine : BoundedEngine)
    (files : Files)
    (descriptors : List Descriptor) :
    let turn :=
      run files (Server.create engine descriptors)
        (Incoming.ofStream (part.bytes ++ rest))
    handled turn = [] ∧ turn.server.exitCode = 1 := by
  intro turn
  have hSound :
      Turn.Sound (fun _ => True)
        ⟨Server.create engine descriptors, []⟩ :=
    Turn.sound_create (fun _ => True) engine descriptors
  rcases Incoming.ofStream_closes hCloses rest with ⟨n, hStream⟩
  rcases
      takenIn_run engine files descriptors
        (Incoming.ofStream (part.bytes ++ rest)) with
    ⟨arrivals,
      ⟨hMessages, hBetween⟩ | ⟨before, fault, after, hIncoming, _⟩⟩
  · have hNone : arrivals = [] := by
      rw [hStream, messages_faultyLength] at hMessages
      exact List.map_eq_nil_iff.mp hMessages
    have hWaiting : turn.server.waiting = none :=
      waiting_run hSound (fun _ _ => trivial) files
    have hHandled : handled turn = [] := by
      rw [handled_of_between hBetween hWaiting, hNone]
      rfl
    refine ⟨hHandled, ?_⟩
    rw [Server.exitCode, hBetween.inOrder.shutdown_eq, hHandled]
    rfl
  · have hMember :
        Incoming.unreadable fault ∈
          List.replicate n .faultyLength := by
      rw [← hStream, hIncoming]
      exact List.mem_append_right before List.mem_cons_self
    exact absurd (List.eq_of_mem_replicate hMember) (by simp)

/-
  A part that cannot be read crashes a new server, whatever
  comes after it.
-/
theorem run_of_isUnreadable
    {part : Part}
    (hOpen : ¬ part.Closes)
    (hUnreadable : part.IsUnreadable)
    (hFaults : part.header.faults = 0)
    (rest : Bytes)
    (engine : BoundedEngine)
    (files : Files)
    (descriptors : List Descriptor) :
    run files (Server.create engine descriptors)
        (Incoming.ofStream (part.bytes ++ rest)) =
      Turn.crash ⟨Server.create engine descriptors, []⟩ := by
  rcases Incoming.exists_fault_of_isUnreadable hUnreadable with
    ⟨fault, hContent⟩
  have hStream :
      Incoming.ofStream (part.bytes ++ rest) =
        [] ++ .unreadable fault :: Incoming.ofStream rest := by
    rw [Incoming.ofStream_part hOpen, Incoming.ofPart, hFaults,
      hContent]
    rfl
  rw [hStream]
  exact run_of_idle ⟨rfl, rfl⟩ fault _

end Session

------------------------------------------------------------
-- A Shutdown That Is Lost
------------------------------------------------------------

namespace Session.Lost

open Marginalia.Frame (Part Head Written)

/- A request to shut down. -/
def shutDown : Json :=
  Json.record
    [ ("id", .int 1), ("method", Json.ofString "shutdown") ]

/- The exit. -/
def exit : Json :=
  Json.record [ ("method", Json.ofString "exit") ]

/- The frames of both. -/
def ending : List Written :=
  [ .ofBody shutDown.compact (by decide) (by decide),
    .ofBody exit.compact (by decide) (by decide) ]

/- A session in which the shutdown and the exit come after a part. -/
def after (part : Part) : Turn :=
  run (fun _ => none) (Server.create .standard [])
    (Incoming.ofStream
      (part.bytes ++ ending.flatMap Written.bytes))

/- A header without a length. -/
def lengthless : Head where
  lines := [utf8 "Content-Type: text\r"]
  blank := utf8 "\r"
  lf_not_mem := by decide
  line_ne_nil := by decide
  lf_not_mem_blank := by decide
  blank_eq_nil := by decide
  length_faulty :=
    .inl (Frame.Header.length_ofLines_of_missing _ (by decide))

/- A header with the length zero. -/
def zero : Head :=
  .ofText (utf8 " 0") (by decide) (.inl (by decide))

/- A header whose length is no number. -/
def word : Head :=
  .ofText (utf8 " abc") (by decide) (.inl (by decide))

/- A header whose length is negative. -/
def negative : Head :=
  .negative 5 (by decide) (by decide)

/-
  The shutdown and the exit are correct frames, but neither is
  handled after a header without a length, or after one with a
  negative length, which crashes the server.
-/
theorem handled_afterHead :
    ending.map (fun frame => Json.parse? frame.body) =
        [some shutDown, some exit] ∧
      (∀ head ∈ [lengthless, zero, word],
        handled (after (.bare head)) = [] ∧
          (after (.bare head)).server.exitCode = 1) ∧
        handled (after (.bare negative)) = [] ∧
          (after (.bare negative)).server.crashed = true := by
  refine ⟨?_, ?_, ?_⟩
  · rfl
  · intro head hHead
    have hAll :
        ∀ head ∈ [lengthless, zero, word], head.header.length = 0 := by
      decide
    have hCloses : (Part.bare head).Closes := hAll head hHead
    exact handled_run_closes hCloses _ _ _ _
  · have hOpen : ¬ (Part.bare negative).Closes := by
      have hLength : negative.header.length ≠ 0 := by decide
      exact hLength
    have hUnreadable : (Part.bare negative).IsUnreadable :=
      negative.length_faulty.resolve_left hOpen
    have hFaults : (Part.bare negative).header.faults = 0 := by
      decide
    have hRun :
        after (.bare negative) =
          Turn.crash ⟨Server.create .standard [], []⟩ :=
      run_of_isUnreadable hOpen hUnreadable hFaults _ _ _ _
    rw [hRun]
    exact ⟨rfl, rfl⟩

end Session.Lost

end Marginalia

import Marginalia.Proofs.Json
import Marginalia.Proofs.Server.Knowledge

/-
  This file says what a lookup comes to on a server that knows
  what a server without a memory knows.  It delivers what the
  other one finds, or waits for the selection of the client
  first, and delivers once it has one or is told that there is
  none.

  Key definitions include:
    * `Turn.SameKnowledge`
    * `Inquiry.Serves`
    * `Turn.Delivered`, `Turn.Pending`
  The main statements are:
    * `Turn.delivered_compute`
    * `Turn.delivered_or_pending_lookUp`
    * `Turn.delivered_resume_selection`
    * `Turn.delivered_resume_gloss`
-/

namespace Marginalia

------------------------------------------------------------
-- Requests
------------------------------------------------------------

namespace Handler

/- The `id` of a request is UTF-8. -/
theorem isValid_requestId
    (n : Int) :
    Utf8.isValid (requestId n) = true := by
  have hDigits :
      ∀ m, ∀ b ∈ Decimal.ofNat m, b < 0x80 := by
    intro m b hDigit
    have hRange :=
      Ascii.toNat_of_isDigit (Decimal.isDigit_of_mem_ofNat hDigit)
    rw [UInt8.lt_iff_toNat_lt]
    exact Nat.lt_of_le_of_lt hRange.2 (by decide)
  apply Utf8.isValid_of_isAscii
  intro b hMember
  rcases List.mem_append.mp hMember with hPrefix | hNumber
  · have hAll :
        (utf8 "honyaku-").all (fun b => decide (b < 0x80)) = true := by
      decide
    simpa using List.all_eq_true.mp hAll b hPrefix
  · cases n with
    | ofNat m => exact hDigits m b hNumber
    | negSucc m =>
        rcases List.mem_cons.mp hNumber with hMinus | hDigit
        · rw [hMinus]
          decide
        · exact hDigits (m + 1) b hDigit

/- A request can be printed if its parts can. -/
theorem isPrintable_requestFrame
    {request : Request}
    (hMethod : Utf8.isValid request.method = true)
    (hParams : request.params.isPrintable = true)
    (n : Int) :
    (requestFrame (requestId n) request).isPrintable = true := by
  have hId := isValid_requestId n
  apply Json.isPrintable_ofMembers
  simp only [List.map, Json.areMembersPrintable, Json.isPrintable,
    Json.ofString, hId, hMethod, hParams]
  rfl

/- The request for a selection can be printed. -/
theorem isPrintable_selectionRequest
    {document : Document}
    (hUri : Utf8.isValid document.uri = true)
    (position : Position) :
    (selectionRequest document position).params.isPrintable =
      true := by
  have hItem :
      (Json.record [("uri", .text document.uri)]).isPrintable =
        true := by
    apply Json.isPrintable_ofMembers
    simp only [List.map, Json.areMembersPrintable, Json.isPrintable,
      hUri]
    rfl
  apply Json.isPrintable_ofMembers
  simp only [List.map, Json.areMembersPrintable, hItem,
    Position.isPrintable_toJson]
  rfl

end Handler

------------------------------------------------------------
-- What Delivering Leaves Known
------------------------------------------------------------

namespace Turn

/- The server knows the same in both turns. -/
structure SameKnowledge (before after : Turn) : Prop where
  documents_eq : after.server.documents = before.server.documents
  defaults_eq : after.server.defaults = before.server.defaults
  service_eq : after.server.service = before.server.service

theorem sameKnowledge_refl
    (turn : Turn) :
    SameKnowledge turn turn :=
  ⟨rfl, rfl, rfl⟩

theorem sameKnowledge_trans
    ⦃a b c : Turn⦄
    (hFirst : SameKnowledge a b)
    (hSecond : SameKnowledge b c) :
    SameKnowledge a c :=
  ⟨hSecond.documents_eq.trans hFirst.documents_eq,
    hSecond.defaults_eq.trans hFirst.defaults_eq,
    hSecond.service_eq.trans hFirst.service_eq⟩

end Turn

namespace Handler

open Turn

/- Sending a frame teaches the server nothing. -/
theorem sameKnowledge_send
    (frame : Json) :
    Keeps SameKnowledge (send frame) :=
  keeps_send sameKnowledge_refl (fun _ => ⟨rfl, rfl, rfl⟩)

/- Neither does asking for something and waiting for it. -/
theorem sameKnowledge_ask_wait
    (request : Request)
    (waiting : Bytes → Waiting) :
    Keeps SameKnowledge
      (ask request >>= fun id => wait (waiting id)) := by
  refine keeps_bind sameKnowledge_trans ?_ (fun _ _ => ⟨rfl, rfl, rfl⟩)
  unfold ask
  refine keeps_bind sameKnowledge_trans
    (keeps_server sameKnowledge_refl) ?_
  intro s
  refine keeps_bind sameKnowledge_trans (fun _ => ⟨rfl, rfl, rfl⟩) ?_
  intro _
  refine keeps_bind sameKnowledge_trans (sameKnowledge_send _) ?_
  intro _
  exact keeps_pure sameKnowledge_refl _

/- Showing a comment teaches the server nothing. -/
theorem sameKnowledge_deliverHover
    (recipient : Recipient)
    (block : CommentBlock) :
    Keeps SameKnowledge (deliverHover recipient block) := by
  unfold deliverHover
  refine keeps_bind sameKnowledge_trans
    (keeps_server sameKnowledge_refl) ?_
  intro s
  dsimp only
  split
  · exact sameKnowledge_send _
  · exact sameKnowledge_ask_wait _ _

/- Neither does using a gloss. -/
theorem sameKnowledge_resume_gloss
    (request : Bytes)
    (recipient : Recipient)
    (block : CommentBlock)
    (result? : Option Json) :
    Keeps SameKnowledge
      (resume (.gloss request recipient block) result?) := by
  refine keeps_bind sameKnowledge_trans (fun _ => ⟨rfl, rfl, rfl⟩) ?_
  intro _
  refine keeps_bind sameKnowledge_trans ?_ (fun _ =>
    sameKnowledge_send _)
  exact
    keeps_remarks sameKnowledge_refl sameKnowledge_trans
      (fun _ _ => ⟨rfl, rfl, rfl⟩) _

end Handler

------------------------------------------------------------
-- Deliveries
------------------------------------------------------------

namespace Turn

/-
  Between the turns a lookup was delivered: a report by these
  frames.  For a hover the server may wait for a gloss then.
-/
structure Delivered
    (files : Files)
    (horizon : Horizon)
    (replica : Replica)
    (purpose : Purpose)
    (result : List Json)
    (before after : Turn) : Prop where
  agrees : Server.Agrees files horizon replica after.server
  replies :
    ∃ frames,
      Replies frames before after ∧
        (purpose = .report → frames = result)
  waiting :
    ∀ waiting ∈ after.server.waiting,
      purpose = .hover ∧
        ∃ request recipient block,
          waiting = .gloss request recipient block

variable {files : Files}
variable {horizon : Horizon}
variable {replica : Replica}
variable {purpose : Purpose}
variable {result : List Json}
variable {turn next after : Turn}

/- What is not replied to may come before a delivery. -/
theorem delivered_of_replies
    (hFirst : Replies [] turn next)
    (hDelivered :
      Delivered files horizon replica purpose result next after) :
    Delivered files horizon replica purpose result turn after := by
  rcases hDelivered.replies with ⟨frames, hReplies, hFrames⟩
  refine ⟨hDelivered.agrees, ⟨frames, ?_, hFrames⟩, hDelivered.waiting⟩
  simpa using replies_trans hFirst hReplies

/- Knowledge that stays the same still agrees. -/
theorem agrees_of_sameKnowledge
    (hAgrees : Server.Agrees files horizon replica turn.server)
    (hSame : SameKnowledge turn next) :
    Server.Agrees files horizon replica next.server :=
  Server.agrees_of_eq hAgrees hSame.documents_eq hSame.defaults_eq
    hSame.service_eq

/- What is waited for in the last round is a gloss. -/
theorem exists_gloss_of_rounds_le_one
    {waiting : Waiting}
    (hWaiting : turn.server.waiting = some waiting)
    (hRounds : turn.server.rounds ≤ 1) :
    ∃ request recipient block,
      waiting = .gloss request recipient block := by
  rw [Server.rounds_of_waiting hWaiting] at hRounds
  cases waiting with
  | selection request inquiry => simp [Waiting.rounds] at hRounds
  | gloss request recipient block =>
      exact ⟨request, recipient, block, rfl⟩

/- A hover is delivered by a handler that teaches the server nothing. -/
theorem delivered_hover
    {h : Handler Unit}
    {recipient : Recipient}
    (hAgrees : Server.Agrees files horizon replica turn.server)
    (hKeeps : Handler.Keeps SameKnowledge h)
    (hAsks : Handler.AsksAt 1 h turn) :
    Delivered files horizon replica .hover result turn
      (turn.attempt recipient h) := by
  have hTried := tried_attempt hAsks recipient
  refine ⟨?_, ?_, ?_⟩
  · rw [server_attempt]
    exact agrees_of_sameKnowledge hAgrees (hKeeps turn)
  · rcases replies_of_outputs hTried.within.outputs with
      ⟨frames, hReplies⟩
    refine ⟨frames, hReplies, ?_⟩
    intro hPurpose
    cases hPurpose
  · intro waiting hWaiting
    refine ⟨rfl, ?_⟩
    exact exists_gloss_of_rounds_le_one hWaiting hTried.rounds_le

/- Replies that leave the server as it is deliver themselves. -/
theorem delivered_of_server_eq
    (hAgrees : Server.Agrees files horizon replica turn.server)
    (hWaiting : turn.server.waiting = none)
    (hServer : next.server = turn.server)
    (hReplies : Replies result turn next)
    (purpose : Purpose) :
    Delivered files horizon replica purpose result turn next := by
  refine ⟨?_, ⟨result, hReplies, fun _ => rfl⟩, ?_⟩
  · rw [hServer]
    exact hAgrees
  · rw [hServer, hWaiting]
    intro waiting hMember
    cases hMember

/- An answer delivers its result. -/
theorem delivered_answer
    (hAgrees : Server.Agrees files horizon replica turn.server)
    (hWaiting : turn.server.waiting = none)
    (purpose : Purpose)
    (recipient : Recipient)
    (result : Json) :
    Delivered files horizon replica purpose (recipient.reply result)
      turn
      (turn.attempt recipient (Handler.answer recipient result)) := by
  have hServer :
      (turn.attempt recipient
        (Handler.answer recipient result)).server = turn.server := by
    rw [server_attempt, Handler.answer, Handler.server_send]
  exact
    delivered_of_server_eq hAgrees hWaiting hServer
      (replies_attempt_answer turn recipient result) purpose

/- What a lookup found is delivered. -/
theorem delivered_deliver
    (hAgrees : Server.Agrees files horizon replica turn.server)
    (hWaiting : turn.server.waiting = none)
    (recipient : Recipient)
    (purpose : Purpose)
    (block? : Option CommentBlock) :
    Delivered files horizon replica purpose
      (recipient.reply (Replica.resultOf block?)) turn
      (turn.attempt recipient
        (Handler.deliver recipient purpose block?)) := by
  cases block? with
  | none =>
      exact delivered_answer hAgrees hWaiting purpose recipient .null
  | some block =>
      cases purpose with
      | report =>
          exact
            delivered_answer hAgrees hWaiting .report recipient
              block.toJson
      | hover =>
          exact
            delivered_hover hAgrees
              (Handler.sameKnowledge_deliverHover recipient block)
              (Handler.asks_of_looksUp
                (Handler.looksUp_deliverHover (Nat.le_refl 1)
                  recipient block) turn hWaiting)

/- A failure is delivered by a refusal. -/
theorem delivered_refuse
    (hAgrees : Server.Agrees files horizon replica turn.server)
    (hWaiting : turn.server.waiting = none)
    (purpose : Purpose)
    (recipient : Recipient)
    (e : HandlerError) :
    Delivered files horizon replica purpose (recipient.refusal e)
      turn (turn.refuse recipient e) :=
  delivered_of_server_eq hAgrees hWaiting
    (server_refuse turn recipient e)
    (replies_refuse turn recipient e) purpose

/-
  What is looked up in an open document is delivered, as a
  server without a memory finds it.
-/
theorem delivered_compute
    {inquiry : Inquiry}
    (hAgrees : Server.Agrees files horizon replica turn.server)
    (hWaiting : turn.server.waiting = none)
    (hKeys : horizon.TellsApart)
    (hOpen : replica.IsOpen inquiry.document)
    (hHolds : turn.server.service.registry.Holds inquiry.grammar) :
    Delivered files horizon replica inquiry.purpose
      (inquiry.recipient.reply
        (Replica.resultOf
          (replica.lookUp inquiry.document inquiry.grammar.grammar
            inquiry.position).block?)) turn
      (turn.attempt inquiry.recipient (Handler.compute inquiry)) := by
  rcases
      Server.agrees_compute hAgrees hKeys hOpen hHolds
        inquiry.position with
    ⟨service, hCompute, hNext⟩
  let lookup :=
    replica.lookUp inquiry.document inquiry.grammar.grammar
      inquiry.position
  let looked := turn.update (fun s => { s with service := service })
  let remarked :=
    looked.note
      (.remarked
        (Service.remark inquiry.document inquiry.position lookup))
  have hSplit :
      turn.attempt inquiry.recipient (Handler.compute inquiry) =
        remarked.attempt inquiry.recipient
          (Handler.deliver inquiry.recipient inquiry.purpose
            lookup.block?) := by
    unfold Handler.compute
    rw [attempt_server_bind, hCompute]
    rfl
  have hBefore : Replies [] turn remarked :=
    replies_trans (replies_update turn _) (replies_remark looked _)
  have hAgreesThen :
      Server.Agrees files horizon replica remarked.server := hNext
  have hWaitingThen : remarked.server.waiting = none := hWaiting
  rw [hSplit]
  apply delivered_of_replies hBefore
  exact
    delivered_deliver hAgreesThen hWaitingThen inquiry.recipient
      inquiry.purpose lookup.block?

------------------------------------------------------------
-- Lookups
------------------------------------------------------------

/-
  Remarks are made, and nothing else changes.  The induction is
  on the remarks.
-/
theorem runFrom_remarks
    (remarks : List Diagnostic) :
    ∀ turn : Turn,
      ∃ next,
        (remarks.forM Handler.remark).runFrom turn = (.ok (), next) ∧
          Replies [] turn next ∧ next.server = turn.server := by
  induction remarks with
  | nil =>
      intro turn
      exact ⟨turn, rfl, replies_refl turn, rfl⟩
  | cons r rest ih =>
      intro turn
      rcases ih (turn.note (.remarked r)) with
        ⟨next, hRun, hReplies, hServer⟩
      refine ⟨next, ?_, ?_, hServer⟩
      · exact hRun
      · exact replies_trans (replies_remark turn r) hReplies

/-
  Looking for a grammar makes remarks, and leaves the server with
  the registry as it is then.
-/
theorem exists_runFrom_grammarFor
    (files : Files)
    (language : Bytes)
    (turn : Turn) :
    let found :=
      turn.server.service.registry.grammarFor files language
    ∃ next,
      (Handler.grammarFor files language).runFrom turn =
          (found.1.mapError .table, next) ∧
        Replies [] turn next ∧
          next.server =
            { turn.server with
              service :=
                { turn.server.service with registry := found.2.1 } } := by
  intro found
  let service := { turn.server.service with registry := found.2.1 }
  let learned := turn.update (fun s => { s with service := service })
  rcases runFrom_remarks found.2.2 learned with
    ⟨next, hRun, hReplies, hServer⟩
  refine
    ⟨next, ?_, replies_trans (replies_update turn _) hReplies,
      hServer⟩
  have hFor :
      turn.server.service.grammarFor files language =
        (found.1, service, found.2.2) := rfl
  unfold Handler.grammarFor
  rw [Handler.runFrom_server_bind, hFor]
  dsimp only
  rw [Handler.runFrom_update_bind, Handler.runFrom_bind_of_ok hRun]
  cases found.1 <;> rfl

/- The grammar of a language is found. -/
theorem runFrom_grammarFor
    (hAgrees : Server.Agrees files horizon replica turn.server)
    (hLoads : horizon.Loads replica.registry.engine files)
    (language : Bytes) :
    ∃ grammar? next,
      (Handler.grammarFor files language).runFrom turn =
          (.ok grammar?, next) ∧
        Replies [] turn next ∧
          Server.Agrees files horizon replica next.server ∧
            next.server.waiting = turn.server.waiting ∧
              grammar?.map LoadedGrammar.grammar =
                  replica.registry.held files language ∧
                ∀ grammar ∈ grammar?,
                  next.server.service.registry.Holds grammar := by
  have hAll :
      ∀ d ∈ turn.server.service.registry.descriptors,
        Registry.Loads turn.server.service.registry.engine files
          d := by
    rw [hAgrees.engine_eq, hAgrees.descriptors_eq]
    intro d hMember
    exact hLoads d (hAgrees.named d hMember)
  rcases
      Registry.grammarFor_remembers hAll hAgrees.remembers language
      with ⟨grammar?, registry, remarks, hFor, hFound⟩
  rcases exists_runFrom_grammarFor files language turn with
    ⟨next, hRun, hReplies, hServer⟩
  rw [hFor] at hRun hServer
  refine ⟨grammar?, next, hRun, hReplies, ?_, ?_, ?_, ?_⟩
  · rw [hServer]
    exact Server.agrees_grown hAgrees hFound.remembers hFound.grows
  · rw [hServer]
  · rw [hFound.grammar_eq]
    exact
      Registry.held_of_descriptors hAgrees.engine_eq
        hAgrees.descriptors_eq hAgrees.excluded_eq files language
  · rw [hServer]
    exact hFound.holds

end Turn

/-
  The inquiry serves the message: it is about a document that is
  open where the message says, the grammar of its language, and
  the position in the message.
-/
structure Inquiry.Serves
    (files : Files)
    (replica : Replica)
    (server : Server)
    (inquiry : Inquiry)
    (message : Json) : Prop where
  isOpen : replica.IsOpen inquiry.document
  holds : server.service.registry.Holds inquiry.grammar
  held_eq :
    replica.registry.held files inquiry.document.languageId =
      some inquiry.grammar.grammar
  recipient_eq : inquiry.recipient = Recipient.ofMessage message
  uri_eq : message.params.documentUri = .ok inquiry.document.uri
  position_eq : message.params.documentPosition = .ok inquiry.position

/- What is reported of the document that an inquiry is about. -/
theorem Inquiry.comment?_of_serves
    {files : Files}
    {replica : Replica}
    {server : Server}
    {inquiry : Inquiry}
    {message : Json}
    (hServes : inquiry.Serves files replica server message)
    (answers : List Json) :
    replica.comment? files message.params answers =
      (Replica.selectionIn answers).map (fun selection? =>
        (Service.ofSelection? selection?).or
          (replica.lookUp inquiry.document inquiry.grammar.grammar
            inquiry.position).block?) := by
  have hOpen : replica.documents inquiry.document.uri =
      some inquiry.document := hServes.isOpen
  unfold Replica.comment?
  rw [hServes.uri_eq, hServes.position_eq]
  simp only [bind, Except.bind, hOpen, hServes.held_eq]
  cases Replica.selectionIn answers <;> rfl

namespace Turn

/- Between the turns a lookup came to wait for a selection. -/
structure Pending
    (files : Files)
    (horizon : Horizon)
    (replica : Replica)
    (purpose : Purpose)
    (message : Json)
    (before after : Turn) : Prop where
  agrees : Server.Agrees files horizon replica after.server
  replies : Replies [] before after
  waiting :
    ∃ request inquiry,
      after.server.waiting = some (.selection request inquiry) ∧
        inquiry.purpose = purpose ∧
          inquiry.Serves files replica after.server message

variable {files : Files}
variable {horizon : Horizon}
variable {replica : Replica}
variable {purpose : Purpose}
variable {turn next : Turn}
variable {message : Json}

/- The lookup waits for the selection of the client. -/
theorem pending_ask
    {inquiry : Inquiry}
    (hAgrees : Server.Agrees files horizon replica turn.server)
    (hServes : inquiry.Serves files replica turn.server message)
    (hPrintable : message.isPrintable = true) :
    Pending files horizon replica inquiry.purpose message turn
      (turn.attempt inquiry.recipient (do
        let id ←
          Handler.ask
            (Handler.selectionRequest inquiry.document
              inquiry.position)
        Handler.wait (.selection id inquiry))) := by
  have hUri : Utf8.isValid inquiry.document.uri = true :=
    Json.isValid_of_documentUri (Json.isPrintable_params hPrintable)
      hServes.uri_eq
  let request :=
    Handler.selectionRequest inquiry.document inquiry.position
  let frame := Handler.requestFrame (Handler.nextId turn) request
  have hFrame : frame.isPrintable = true :=
    Handler.isPrintable_requestFrame rfl
      (Handler.isPrintable_selectionRequest hUri inquiry.position)
      turn.server.nextRequest
  have hRequest : Exchange.isRequest frame = true := rfl
  rw [attempt_bind (Handler.runFrom_ask_of_isPrintable hFrame)]
  refine ⟨?_, ?_, ?_⟩
  · exact Server.agrees_of_eq hAgrees rfl rfl rfl
  · have hAsked :=
      replies_trans (replies_update turn _)
        (replies_requested hRequest (Handler.counted turn))
    exact replies_trans hAsked (replies_update _ _)
  · exact
      ⟨_, inquiry, rfl, rfl, hServes.isOpen, hServes.holds,
        hServes.held_eq, hServes.recipient_eq, hServes.uri_eq,
        hServes.position_eq⟩

/- What is not replied to may come before the wait. -/
theorem pending_of_replies
    {after : Turn}
    (hFirst : Replies [] turn next)
    (hPending :
      Pending files horizon replica purpose message next after) :
    Pending files horizon replica purpose message turn after :=
  ⟨hPending.agrees, replies_trans hFirst hPending.replies,
    hPending.waiting⟩

/- It is delivered that there is no comment. -/
theorem delivered_nothing
    (hAgrees : Server.Agrees files horizon replica turn.server)
    (hWaiting : turn.server.waiting = none)
    (hNothing : replica.comment? files message.params [] = .ok none)
    (purpose : Purpose) :
    Delivered files horizon replica purpose
      (replica.report files message []) turn
      (turn.attempt (Recipient.ofMessage message)
        (Handler.deliver (Recipient.ofMessage message) purpose
          none)) := by
  rw [Replica.report, hNothing]
  exact
    delivered_deliver hAgrees hWaiting (Recipient.ofMessage message)
      purpose none

/- It is delivered that a part of the message cannot be read. -/
theorem delivered_unread
    {e : JsonError}
    (hAgrees : Server.Agrees files horizon replica turn.server)
    (hWaiting : turn.server.waiting = none)
    (hUnread : replica.comment? files message.params [] = .error e)
    (purpose : Purpose) :
    Delivered files horizon replica purpose
      (replica.report files message []) turn
      (turn.refuse (Recipient.ofMessage message) (.json e)) := by
  rw [Replica.report, hUnread]
  exact
    delivered_refuse hAgrees hWaiting purpose
      (Recipient.ofMessage message) (.json e)

/-
  A lookup whose document and grammar are known asks for the
  selection of the client, or looks into the document.
-/
theorem delivered_or_pending_inquire
    {inquiry : Inquiry}
    (hAgrees : Server.Agrees files horizon replica turn.server)
    (hWaiting : turn.server.waiting = none)
    (hKeys : horizon.TellsApart)
    (hPrintable : message.isPrintable = true)
    (hServes : inquiry.Serves files replica turn.server message) :
    let next :=
      turn.attempt inquiry.recipient (do
        if (← Handler.server).asksSelection then
          let id ←
            Handler.ask
              (Handler.selectionRequest inquiry.document
                inquiry.position)
          Handler.wait (.selection id inquiry)
        else Handler.compute inquiry)
    Delivered files horizon replica inquiry.purpose
        (replica.report files message []) turn next ∨
      Pending files horizon replica inquiry.purpose message turn
        next := by
  dsimp only
  rw [attempt_server_bind]
  split
  · right
    exact pending_ask hAgrees hServes hPrintable
  · left
    rw [Replica.report, Inquiry.comment?_of_serves hServes [],
      ← hServes.recipient_eq]
    exact
      delivered_compute hAgrees hWaiting hKeys hServes.isOpen
        hServes.holds

/-
  A lookup is delivered, as a server without a memory finds it,
  or waits for the selection of the client.
-/
theorem delivered_or_pending_lookUp
    (hAgrees : Server.Agrees files horizon replica turn.server)
    (hWaiting : turn.server.waiting = none)
    (hKeys : horizon.TellsApart)
    (hLoads : horizon.Loads replica.registry.engine files)
    (hPrintable : message.isPrintable = true)
    (purpose : Purpose) :
    let next :=
      turn.attempt (Recipient.ofMessage message)
        (Handler.lookUp files (Recipient.ofMessage message) purpose
          message.params)
    Delivered files horizon replica purpose
        (replica.report files message []) turn next ∨
      Pending files horizon replica purpose message turn next := by
  dsimp only
  unfold Handler.lookUp
  cases hUri : message.params.documentUri with
  | error e =>
      left
      apply delivered_unread hAgrees hWaiting
      rw [Replica.comment?, hUri]
      rfl
  | ok uri =>
      rw [Handler.read_ok, pure_bind, attempt_server_bind,
        hAgrees.documents_eq]
      cases hDocument : replica.documents uri with
      | none =>
          left
          apply delivered_nothing hAgrees hWaiting
          simp only [Replica.comment?, hUri, bind, Except.bind,
            hDocument]
          rfl
      | some document =>
          dsimp only
          cases hPosition : message.params.documentPosition with
          | error e =>
              left
              apply delivered_unread hAgrees hWaiting
              simp only [Replica.comment?, hUri, bind, Except.bind,
                hDocument, hPosition]
          | ok position =>
              rw [Handler.read_ok, pure_bind]
              rcases
                  runFrom_grammarFor hAgrees hLoads
                    document.languageId with
                ⟨grammar?, found, hRun, hReplies, hFound, hSame,
                  hHeld, hHolds⟩
              have hFree : found.server.waiting = none :=
                hSame.trans hWaiting
              rw [attempt_bind hRun]
              cases grammar? with
              | none =>
                  left
                  apply delivered_of_replies hReplies
                  apply delivered_nothing hFound hFree
                  have hNone :
                      replica.registry.held files document.languageId =
                        none := hHeld.symm
                  simp only [Replica.comment?, hUri, bind,
                    Except.bind, hDocument, hPosition, hNone]
                  rfl
              | some grammar =>
                  have hPlace := hAgrees.uri_eq hDocument
                  have hOpen : replica.IsOpen document := by
                    rw [Replica.IsOpen, hPlace]
                    exact hDocument
                  let inquiry : Inquiry :=
                    { recipient := Recipient.ofMessage message
                      purpose := purpose
                      document := document
                      position := position
                      grammar := grammar }
                  have hServes :
                      inquiry.Serves files replica found.server
                        message :=
                    { isOpen := hOpen
                      holds := hHolds grammar rfl
                      held_eq := hHeld.symm
                      recipient_eq := rfl
                      uri_eq := by rw [hUri, hPlace]
                      position_eq := hPosition }
                  rcases
                      delivered_or_pending_inquire hFound hFree hKeys
                        hPrintable hServes with
                    hDelivered | hPending
                  · exact
                      Or.inl (delivered_of_replies hReplies hDelivered)
                  · exact
                      Or.inr (pending_of_replies hReplies hPending)

------------------------------------------------------------
-- Going On
------------------------------------------------------------

/-
  A lookup that waited for a selection is delivered once there
  is one, or it is known that there is none.
-/
theorem delivered_resume_selection
    {inquiry : Inquiry}
    {result? : Option Json}
    {answers : List Json}
    (hAgrees : Server.Agrees files horizon replica turn.server)
    (hKeys : horizon.TellsApart)
    (hServes : inquiry.Serves files replica turn.server message)
    (hSelection :
      Selection.ofResult? result? = Replica.selectionIn answers)
    (request : Bytes) :
    Delivered files horizon replica inquiry.purpose
      (replica.report files message answers) turn
      (turn.attempt inquiry.recipient
        (Handler.resume (.selection request inquiry) result?)) := by
  have hFree : turn.unwaiting.server.waiting = none := rfl
  have hThen : Server.Agrees files horizon replica turn.unwaiting.server :=
    Server.agrees_of_eq hAgrees rfl rfl rfl
  have hSplit :
      turn.attempt inquiry.recipient
          (Handler.resume (.selection request inquiry) result?) =
        turn.unwaiting.attempt inquiry.recipient
          (Handler.proceed result? (.selection request inquiry)) :=
    rfl
  rw [hSplit, Replica.report,
    Inquiry.comment?_of_serves hServes answers,
    ← hServes.recipient_eq]
  apply delivered_of_replies (replies_update turn _)
  unfold Handler.proceed
  rw [hSelection]
  cases Replica.selectionIn answers with
  | error e =>
      exact
        delivered_refuse hThen hFree inquiry.purpose
          inquiry.recipient (.json e)
  | ok selection? =>
      dsimp only [Except.map]
      rw [Handler.read_ok, pure_bind]
      cases Service.ofSelection? selection? with
      | some block =>
          exact
            delivered_deliver hThen hFree inquiry.recipient
              inquiry.purpose (some block)
      | none =>
          exact
            delivered_compute hThen hFree hKeys hServes.isOpen
              hServes.holds

/- A hover that waited for a gloss is delivered. -/
theorem delivered_resume_gloss
    {result : List Json}
    (hAgrees : Server.Agrees files horizon replica turn.server)
    (request : Bytes)
    (recipient : Recipient)
    (block : CommentBlock)
    (result? : Option Json) :
    Delivered files horizon replica .hover result turn
      (turn.attempt recipient
        (Handler.resume (.gloss request recipient block) result?)) := by
  have hAsks :=
    Handler.asksAt_resume (.gloss request recipient block) result? turn
  apply delivered_hover hAgrees
  · exact Handler.sameKnowledge_resume_gloss _ _ _ _
  · exact
      ⟨hAsks.within, hAsks.attends,
        Nat.le_trans hAsks.rounds_le (by simp [Waiting.rounds]),
        hAsks.waiting_of_error⟩

end Turn

end Marginalia

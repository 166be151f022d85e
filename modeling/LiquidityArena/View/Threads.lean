import LiquidityArena.Engine.System
import LiquidityArena.View.Observe

/-!
# The steps of the two threads

A command of the queue is a call of the engine; the event it leads to says whether a
cancel or modify found its order. The other steps move items between the queues and
the send buffers. Each step is described here once.
-/

namespace LiquidityArena

open OrderBook

/-- The engine call of a request. -/
def Request.call : Request → Call
  | .newOrder msg => .newOrder msg.args
  | .cancelOrder msg => .cancel msg.id
  | .modifyOrder msg => .modify msg.id msg.newPrice msg.newQuantity

/-- The order a request is about. -/
def Request.id : Request → OrderId
  | .newOrder msg => msg.id
  | .cancelOrder msg => msg.id
  | .modifyOrder msg => msg.id

/-- The reject with which the engine thread answers a request, if it answers with one: a
cancel or a modify is rejected when it does not succeed. -/
def Request.refusal (book : OrderBook) : Request → Option RejectMsg
  | .newOrder _ => none
  | .cancelOrder msg => if book.orderOf msg.id = none then some ⟨msg.id, .orderNotFound⟩ else none
  | .modifyOrder msg =>
    if ∃ o ∈ book.orderOf msg.id, 0 < msg.newQuantity ∧ msg.newQuantity ≤ o.remaining then none
    else some ⟨msg.id, .invalidModify⟩

/-- The type of the message that carries a request. -/
def Request.msgType : Request → MsgType
  | .newOrder _ => .newOrder
  | .cancelOrder _ => .cancelOrder
  | .modifyOrder _ => .modifyOrder

/-- What the server has checked of a request that it forwards. -/
def Request.Screened (hasOrder : OrderId → Bool) (payload : List UInt8) : Request → Prop
  | .newOrder msg => msg = NewOrderMsg.deserialize payload ∧ 0 < msg.quantity ∧
      ¬ (msg.type = .limit ∧ msg.price ≤ 0) ∧ hasOrder msg.id = false
  | .cancelOrder msg => msg = CancelOrderMsg.deserialize payload
  | .modifyOrder msg => msg = ModifyOrderMsg.deserialize payload ∧ 0 < msg.newQuantity ∧
      0 < msg.newPrice

/-- A request that is forwarded is the one of the message, and has passed the checks. -/
theorem TcpServer.screened_of_forward {hasOrder : OrderId → Bool} {type : MsgType}
    {payload : List UInt8} {request : Request}
    (h : screen hasOrder type payload = .forward request) :
    type = request.msgType ∧ request.Screened hasOrder payload := by
  unfold screen at h
  cases type with
  | newOrder =>
    dsimp only at h
    split_ifs at h with hsize hqty hprice hdup
    obtain rfl := Screening.forward.inj h
    exact ⟨rfl, rfl, not_le.mp hqty, hprice, by simpa using hdup⟩
  | cancelOrder =>
    dsimp only at h
    split_ifs at h
    obtain rfl := Screening.forward.inj h
    exact ⟨rfl, rfl⟩
  | modifyOrder =>
    dsimp only at h
    split_ifs at h with hsize hbad
    obtain rfl := Screening.forward.inj h
    rw [not_or, not_le, not_le] at hbad
    exact ⟨rfl, rfl, hbad⟩
  | fill => cases h
  | bookUpdate => cases h
  | reject => cases h
  | heartbeat => cases h
  | raw => cases h

/-- A queue holds after a push what it held and at most the item. -/
theorem mem_push {α : Type} {queue : List α} {item x : α} (h : x ∈ (push queue item).2) :
    x ∈ queue ∨ x = item := by
  rw [push] at h
  split at h
  · simpa using h
  · exact Or.inl h

/-- A push into a queue with room appends the item. -/
theorem push_of_room {α : Type} {queue : List α} (item : α) (h : queue.length < queueCapacity) :
    (push queue item).2 = queue ++ [item] := by
  rw [push, if_pos h]

@[simp] theorem ClientConn.sock_send (c : ClientConn) (report : Tagged Report) :
    (c.send report).sock = c.sock := by
  rw [send]
  split <;> rfl

@[simp] theorem ClientConn.conn_send (c : ClientConn) (report : Tagged Report) :
    (c.send report).conn = c.conn := by
  rw [send]
  split <;> rfl

/-- Sending to an open connection appends to its buffer. -/
theorem ClientConn.sendBuffer_send {c : ClientConn} (h : c.sock ≠ invalidSock)
    (report : Tagged Report) : (c.send report).sendBuffer = c.sendBuffer ++ [report] := by
  rw [send, if_neg h, append]

/-- What is in a buffer after a message was sent was there before, or is the message. -/
theorem ClientConn.mem_send {c : ClientConn} {report report' : Tagged Report}
    (h : report' ∈ (c.send report).sendBuffer) : report' ∈ c.sendBuffer ∨ report' = report := by
  rw [send] at h
  split_ifs at h
  · exact Or.inl h
  · exact (List.mem_append.mp h).imp_right List.mem_singleton.mp

/-- A client after a reject is one before it, with the reject if it is the receiver. -/
theorem TcpServer.mem_sendReject {clients : List ClientConn} {k request : Nat} {id : OrderId}
    {reason : RejectReason} {c : ClientConn} (h : c ∈ sendReject clients k id reason request) :
    ∃ i c₀, clients[i]? = some c₀ ∧ c.conn = c₀.conn ∧ ∀ report ∈ c.sendBuffer,
      report ∈ c₀.sendBuffer ∨ i = k ∧ report = ⟨.reject ⟨id, reason⟩, request⟩ := by
  obtain ⟨i, hi⟩ := List.mem_iff_getElem?.mp h
  rw [sendReject, List.getElem?_modify, Option.map_eq_map, Option.map_eq_some_iff] at hi
  obtain ⟨c₀, hc₀, rfl⟩ := hi
  refine ⟨i, c₀, hc₀, ?_⟩
  split_ifs with hik
  · exact ⟨c₀.conn_send _, fun report hreport =>
      (ClientConn.mem_send hreport).imp_right fun heq => ⟨hik.symm, heq⟩⟩
  · exact ⟨rfl, fun report hreport => Or.inl hreport⟩

namespace TcpServer

variable (clients : List ClientConn)

/-- What does not depend on the send buffers is not changed by a reject. -/
theorem map_sendReject {β : Type} {g : ClientConn → β} (hg : ∀ c report, g (c.send report) = g c)
    (clientIdx : Nat) (id : OrderId) (reason : RejectReason) (request : Nat) :
    (sendReject clients clientIdx id reason request).map g = clients.map g := by
  ext1 k
  simp only [sendReject, List.getElem?_map, List.getElem?_modify, Option.map_eq_map, Option.map_map]
  refine congrArg (Option.map · clients[k]?) (funext fun c => ?_)
  by_cases hk : clientIdx = k
  · simp only [Function.comp_apply, if_pos hk, hg]
  · simp only [Function.comp_apply, if_neg hk]

/-- What does not depend on the send buffers is not changed by an event. -/
theorem map_consumeEvent {β : Type} {g : ClientConn → β} (hg : ∀ c report, g (c.send report) = g c)
    (event : Tagged EngineEvent) : (consumeEvent clients event).map g = clients.map g := by
  rw [consumeEvent]
  split
  · simp only [broadcast, List.map_map, Function.comp_def, hg]
  · exact map_sendReject _ hg ..
  · rfl

end TcpServer

namespace MatchingEngine

variable {e : MatchingEngine} {v : BookView}

/-- The event a command leads to: a reject for its sender, or a snapshot of the book after it. -/
def answer (cmd : ClientCommand) (before : OrderBook) (e' : MatchingEngine) (ord : HashOrder) :
    EngineEvent :=
  match cmd.payload.refusal before with
  | some msg => ⟨cmd.clientIdx, .reject msg⟩
  | none => e'.updateEvent ord

/-- Every command is processed: it is a call of the engine, with a reject or a snapshot. -/
theorem processClientCommand_spec (h : e.book.Shows v) (ord : HashOrder) (cmd : ClientCommand) :
    ∃ e' trades v', e.processClientCommand ord cmd = some (e', answer cmd e.book e' ord) ∧
      e.perform ord cmd.payload.call = some e' ∧ e'.book.Shows v' ∧
      v.Effect cmd.payload.call trades v' ∧ e'.fees = e.fees ∧
      e'.fills = e.fills ++ tradeMsgs e.fees cmd.payload.id trades := by
  obtain ⟨clientIdx, payload⟩ := cmd
  cases payload with
  | newOrder msg =>
    obtain ⟨e', trades, v', hcall, hshows, heffect, hfees, hfills⟩ :=
      perform_spec h ord (.newOrder msg.args)
    obtain ⟨processed, hprocessed, rfl⟩ := Option.map_eq_some_iff.mp hcall
    refine ⟨processed.2, trades, v', ?_, hcall, hshows, heffect, hfees, hfills⟩
    have hprocessed' : e.processNewOrder ord msg.id msg.side msg.type msg.price msg.quantity 0
        msg.displayQty = some processed := hprocessed
    simp only [processClientCommand, hprocessed', Option.map_some, answer, Request.refusal]
  | cancelOrder msg =>
    obtain ⟨ok, v', hok, hshows, hfees, hfills, heffect, hiff⟩ := processCancel_spec h ord msg.id
    refine ⟨_, [], v', ?_, rfl, hshows, heffect, hfees, hfills.trans (List.append_nil _).symm⟩
    have hfound : e.book.orderOf msg.id = none ↔ ok = false := by
      rw [h.orderOf_eq_none_iff, ← Bool.not_eq_true, hiff]
      simp only [not_exists, not_and, ne_eq]
    simp only [processClientCommand, hok, answer, Request.refusal, hfound]
    cases ok <;> rfl
  | modifyOrder msg =>
    obtain ⟨ok, v', hok, hshows, hfees, hfills, heffect, hiff⟩ :=
      processModify_spec h ord msg.id msg.newPrice msg.newQuantity
    refine ⟨_, [], v', ?_, rfl, hshows, heffect, hfees, hfills.trans (List.append_nil _).symm⟩
    have hfound : (∃ o ∈ e.book.orderOf msg.id,
        0 < msg.newQuantity ∧ msg.newQuantity ≤ o.remaining) ↔ ok = true := by
      rw [hiff]
      constructor
      · rintro ⟨o, ho, hq⟩
        obtain ⟨hmem, hid⟩ := h.orderOf_eq_some_iff.mp ho
        exact ⟨o, hmem, hid, hq⟩
      · rintro ⟨o, hmem, hid, hq⟩
        exact ⟨o, h.orderOf_eq_some_iff.mpr ⟨hmem, hid⟩, hq⟩
    simp only [processClientCommand, hok, answer, Request.refusal, hfound]
    cases ok <;> rfl

/-- A request that is refused leaves the book as it is. -/
theorem book_of_refusal {e' : MatchingEngine} {ord : HashOrder} {request : Request}
    {msg : RejectMsg} (hrefused : request.refusal e.book = some msg)
    (h : e.perform ord request.call = some e') : e'.book = e.book := by
  cases request with
  | newOrder msg => cases hrefused
  | cancelOrder msg =>
    obtain rfl := Option.some.inj h
    rw [Request.refusal] at hrefused
    split_ifs at hrefused with hnone
    rw [OrderBook.orderOf, Option.map_eq_none_iff] at hnone
    simp only [processCancel, OrderBook.cancelOrder, hnone]
  | modifyOrder msg =>
    obtain rfl := Option.some.inj h
    rw [Request.refusal] at hrefused
    split_ifs at hrefused with hfits
    simp only [processModify, OrderBook.modifyOrder]
    cases hget : e.book.getOrder msg.id with
    | none => rfl
    | some p =>
      dsimp only
      split_ifs with hqty hleft
      · rfl
      · rfl
      all_goals
        refine absurd ⟨(e.book.pool.get p).unlink, ?_, not_le.mp hqty, not_lt.mp hleft⟩ hfits
        rw [OrderBook.orderOf, hget]
        rfl

end MatchingEngine

namespace System

variable {s s' : System}

/-- The system with one more message on record. -/
def record (s : System) (conn idx : Nat) (type : MsgType) (payload : List UInt8) : System :=
  { s with received := s.received ++ [⟨conn, idx, type, payload⟩] }

/-- Removing a client drops its connection and nothing else. -/
theorem step_remove {idx : Nat} (h : s.step (.remove idx) = some s') :
    idx < s.clients.length ∧ s' = { s with clients := s.clients.eraseIdx idx } := by
  rw [step] at h
  split at h
  · exact ⟨‹_›, (Option.some.inj h).symm⟩
  · cases h

/-- A message is rejected at once, forwarded if there is room, or ignored. -/
theorem step_message {idx : Nat} {type : MsgType} {payload : List UInt8}
    (h : s.step (.message idx type payload) = some s') :
    ∃ client, s.clients[idx]? = some client ∧
      ((∃ id reason, TcpServer.screen s.engine.hasOrder type payload = .reject id reason ∧
          s' = { s.record client.conn idx type payload with
            clients := TcpServer.sendReject s.clients idx id reason s.received.length
            outcomes := s.outcomes ++
              [⟨s.received.length, some ⟨id, reason⟩, s.engine.book, s.engine.book⟩] }) ∨
        (∃ request, TcpServer.screen s.engine.hasOrder type payload = .forward request ∧
          s' = { s.record client.conn idx type payload with
            commands := (push s.commands ⟨⟨idx, request⟩, s.received.length⟩).2 }) ∨
        (TcpServer.screen s.engine.hasOrder type payload = .ignore ∧
          s' = s.record client.conn idx type payload)) := by
  obtain ⟨client, hclient, rfl⟩ := Option.map_eq_some_iff.mp h
  refine ⟨client, hclient, ?_⟩
  rw [TcpServer.processMessage]
  cases hscreen : TcpServer.screen s.engine.hasOrder type payload with
  | reject id reason => exact Or.inl ⟨id, reason, rfl, rfl⟩
  | forward request =>
    refine Or.inr (Or.inl ⟨request, rfl, ?_⟩)
    simp only [screeningOutcome, List.append_nil, record]
  | ignore =>
    refine Or.inr (Or.inr ⟨rfl, ?_⟩)
    simp only [screeningOutcome, List.append_nil, record]

/-- Consuming takes the first event and serves it to the clients. -/
theorem step_consume (h : s.step .consume = some s') :
    ∃ event events, s.events = event :: events ∧
      s' = { s with clients := TcpServer.consumeEvent s.clients event, events } := by
  rw [step] at h
  split at h
  · cases h
  · exact ⟨_, _, ‹_›, (Option.some.inj h).symm⟩

/-- Processing takes the first command to the engine and holds its event. -/
theorem step_process {ord : HashOrder} (h : s.step (.process ord) = some s') :
    s.pending = none ∧ ∃ cmd commands e' event, s.commands = cmd :: commands ∧
      s.engine.processClientCommand ord cmd.item = some (e', event) ∧
      s' = { s with
        engine := e'
        commands
        pending := some ⟨event, cmd.request⟩
        outcomes := s.outcomes ++ s.commandOutcome cmd event e'.book } := by
  rw [step] at h
  split at h
  · rename_i cmd commands hpending hcommands
    obtain ⟨⟨e', event⟩, hprocessed, rfl⟩ := Option.map_eq_some_iff.mp h
    exact ⟨hpending, cmd, commands, e', event, hcommands, hprocessed, rfl⟩
  · cases h

/-- Publishing moves the held event to the event queue when there is room. -/
theorem step_publish (h : s.step .publish = some s') :
    ∃ event, s.pending = some event ∧ s.events.length < queueCapacity ∧
      s' = { s with pending := none, events := s.events ++ [event] } := by
  rw [step] at h
  split at h
  · cases h
  · rename_i event hpending
    rw [push] at h
    split at h
    · rename_i hroom
      exact ⟨event, hpending, hroom, (Option.some.inj h).symm⟩
    · cases h

end System

end LiquidityArena

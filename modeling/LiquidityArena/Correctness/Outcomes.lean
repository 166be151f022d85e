import LiquidityArena.View.Threads

/-!
# What becomes of every request

A request can be rejected by the server, lost at a full queue, refused by the engine or
applied. Under any interleaving of the two threads every request has exactly one
outcome as long as no command meets a full queue, the book takes the new orders when
their turn comes and modifies find their order.
-/

namespace LiquidityArena

open OrderBook

/-- The request of a complete message. -/
def Request.ofMessage (type : MsgType) (payload : List UInt8) : Option Request :=
  match type with
  | .newOrder =>
    if payload.length < NewOrderMsg.size then none
    else some (.newOrder (NewOrderMsg.deserialize payload))
  | .cancelOrder =>
    if payload.length < CancelOrderMsg.size then none
    else some (.cancelOrder (CancelOrderMsg.deserialize payload))
  | .modifyOrder =>
    if payload.length < ModifyOrderMsg.size then none
    else some (.modifyOrder (ModifyOrderMsg.deserialize payload))
  | _ => none

/-- Messages are complete requests, and clients stay connected. -/
def Action.Orderly : Action → Prop
  | .message _ type payload => (Request.ofMessage type payload).isSome = true
  | .remove _ => False
  | _ => True

instance : DecidablePred Action.Orderly
  | .accept _ => isTrue trivial
  | .remove _ => isFalse id
  | .message _ _ _ => inferInstanceAs (Decidable (_ = true))
  | .consume => isTrue trivial
  | .process _ => isTrue trivial
  | .publish => isTrue trivial

/-- The documented meaning of the reasons: the book on which a request is decided gives
cause for the rejection. -/
def Documented (book : OrderBook) : Request → RejectReason → Prop
  | .newOrder msg, .invalidParams => ¬ msg.args.Valid
  | .newOrder _, .poolExhausted => ¬ 0 < book.pool.available
  | .newOrder msg, .duplicateId => book.orderOf msg.id ≠ none
  | .cancelOrder msg, .orderNotFound => book.orderOf msg.id = none
  | .modifyOrder msg, .invalidParams => msg.newQuantity ≤ 0 ∨ msg.newPrice ≤ 0
  | .modifyOrder msg, .orderNotFound => book.orderOf msg.id = none
  | .modifyOrder msg, .invalidModify => ∃ o ∈ book.orderOf msg.id, o.remaining < msg.newQuantity
  | _, _ => False

/-- The operation takes effect on the book. -/
def Applicable (book : OrderBook) : Request → Prop
  | .newOrder msg => book.Admits msg.args
  | .cancelOrder msg => book.orderOf msg.id ≠ none
  | .modifyOrder msg =>
    ∃ o ∈ book.orderOf msg.id, 0 < msg.newQuantity ∧ msg.newQuantity ≤ o.remaining

/-- The engine call of the request leads from one book to the other. -/
def Request.AppliedTo (request : Request) (before after : OrderBook) : Prop :=
  ∃ e ord e', MatchingEngine.perform e ord request.call = some e' ∧ e.book = before ∧
    e'.book = after

/-- The outcome is the right one: the operation was applied, or the reject names the order
and a documented reason and the book was left alone. -/
def Outcome.Settles (outcome : Outcome) (request : Request) : Prop :=
  match outcome.reject with
  | none => Applicable outcome.book request ∧ request.AppliedTo outcome.book outcome.after
  | some msg => msg.id = request.id ∧ Documented outcome.book request msg.reason ∧
      outcome.after = outcome.book

/-- The outcomes account for every change of the book, in their order. -/
inductive Chained (first : OrderBook) : List Outcome → OrderBook → Prop
  | nil : Chained first [] first
  | snoc {outcomes : List Outcome} {outcome : Outcome} :
      Chained first outcomes outcome.book → Chained first (outcomes ++ [outcome]) outcome.after

/-- The reject in a send buffer that answers a message. -/
def rejectIn (request : Nat) (report : Tagged Report) : Option RejectMsg :=
  match report.item with
  | .reject msg => if report.request = request then some msg else none
  | _ => none

/-- The reject in an event to a client that answers a message. -/
def rejectTo (idx request : Nat) (event : Tagged EngineEvent) : Option RejectMsg :=
  if event.item.clientIdx = idx then rejectIn request ⟨event.item.payload, event.request⟩ else none

/-- The send buffer of the client at a position. -/
def bufferOf (clients : List ClientConn) (idx : Nat) : List (Tagged Report) :=
  (clients[idx]?.map (·.sendBuffer)).getD []

namespace System

/-- The rejects of a message in the send buffer of a client or on their way to it. -/
def rejects (s : System) (idx request : Nat) : List RejectMsg :=
  (bufferOf s.clients idx).filterMap (rejectIn request) ++
    (s.events ++ s.pending.toList).filterMap (rejectTo idx request)

/-- The commands of a message. -/
def commandsOf (s : System) (request : Nat) : List (Tagged ClientCommand) :=
  s.commands.filter (·.request = request)

/-- The outcomes of a message. -/
def outcomesOf (s : System) (request : Nat) : List Outcome :=
  s.outcomes.filter (·.request = request)

/-- Every message is still queued or has exactly one outcome, which is the right one. The
book is the result of the operations that were applied, and a reject is produced for the
sender and nobody else. -/
structure Accounted (s : System) : Prop where
  once : ∀ r < s.received.length, (s.commandsOf r).length + (s.outcomesOf r).length = 1
  settled : ∀ r msg request, s.received[r]? = some msg →
    Request.ofMessage msg.type msg.payload = some request →
    ∀ outcome ∈ s.outcomesOf r, outcome.Settles request
  applied : Chained OrderBook.init s.outcomes s.engine.book
  delivered : ∀ r msg, s.received[r]? = some msg → ∀ idx,
    s.rejects idx r = if idx = msg.clientIdx then (s.outcomesOf r).filterMap (·.reject) else []

/-- The engine thread is never stuck on a command. -/
def Responsive (s : System) : Prop :=
  s.pending = none → s.commands ≠ [] → ∀ ord, (s.step (.process ord)).isSome = true

end System

/-- The requirement on the steps: a command that passes the server's checks finds room, a new
order is taken by the book when its turn comes, and a modify finds its order. -/
def KeepsTrack (s : System) : Action → Prop
  | .message _ type payload => ∀ request,
      TcpServer.screen s.engine.hasOrder type payload = .forward request →
      s.commands.length < queueCapacity
  | .process _ => ∀ cmd ∈ s.commands.head?,
      match cmd.item.payload with
      | .newOrder msg => s.engine.book.Admits msg.args
      | .cancelOrder _ => True
      | .modifyOrder msg => s.engine.book.orderOf msg.id ≠ none
  | _ => True

instance (s : System) : DecidablePred (KeepsTrack s)
  | .accept _ => isTrue trivial
  | .remove _ => isTrue trivial
  | .message _ type payload =>
    match h : TcpServer.screen s.engine.hasOrder type payload with
    | .reject _ _ => isTrue fun _ hf => by cases h.symm.trans hf
    | .ignore => isTrue fun _ hf => by cases h.symm.trans hf
    | .forward request => decidable_of_iff (s.commands.length < queueCapacity)
        ⟨fun hroom _ _ => hroom, fun hall => hall request h⟩
  | .consume => isTrue trivial
  | .process _ =>
    match h : s.commands.head? with
    | none => isTrue fun _ hcmd => by cases h.symm.trans hcmd
    | some cmd =>
      match hp : cmd.item.payload with
      | .newOrder msg => decidable_of_iff (s.engine.book.Admits msg.args)
          ⟨fun hok cmd' hcmd => by obtain rfl := Option.some.inj (h.symm.trans hcmd); rwa [hp],
            fun hall => by simpa only [hp] using hall cmd h⟩
      | .cancelOrder msg => isTrue fun cmd' hcmd => by
          obtain rfl := Option.some.inj (h.symm.trans hcmd)
          rw [hp]
          trivial
      | .modifyOrder msg => decidable_of_iff (s.engine.book.orderOf msg.id ≠ none)
          ⟨fun hok cmd' hcmd => by obtain rfl := Option.some.inj (h.symm.trans hcmd); rwa [hp],
            fun hall => by simpa only [hp] using hall cmd h⟩
  | .publish => isTrue trivial

/-- A complete message is forwarded or rejected for a documented reason. -/
theorem screen_of_complete (book : OrderBook) {type : MsgType} {payload : List UInt8}
    {request : Request} (h : Request.ofMessage type payload = some request) :
    let hasOrder := fun id => (book.getOrder id).isSome
    TcpServer.screen hasOrder type payload = .forward request ∨
      ∃ reason, TcpServer.screen hasOrder type payload = .reject request.id reason ∧
        Documented book request reason := by
  intro hasOrder
  unfold Request.ofMessage at h
  unfold TcpServer.screen
  cases type with
  | newOrder =>
    dsimp only at h ⊢
    split_ifs at h with hsize
    obtain rfl := Option.some.inj h
    rw [if_neg hsize]
    generalize NewOrderMsg.deserialize payload = msg
    split_ifs with hqty hprice hdup
    · exact Or.inr ⟨_, rfl, fun hvalid => hvalid.1 hqty⟩
    · exact Or.inr ⟨_, rfl, fun hvalid => hvalid.2.1 hprice⟩
    · refine Or.inr ⟨_, rfl, ?_⟩
      rw [Documented, OrderBook.orderOf, ne_eq, Option.map_eq_none_iff]
      exact Option.isSome_iff_ne_none.mp hdup
    · exact Or.inl rfl
  | cancelOrder =>
    dsimp only at h ⊢
    split_ifs at h with hsize
    obtain rfl := Option.some.inj h
    exact Or.inl (if_neg hsize)
  | modifyOrder =>
    dsimp only at h ⊢
    split_ifs at h with hsize
    obtain rfl := Option.some.inj h
    rw [if_neg hsize]
    split_ifs with hbad
    · exact Or.inr ⟨_, rfl, hbad⟩
    · exact Or.inl rfl
  | fill => cases h
  | bookUpdate => cases h
  | reject => cases h
  | heartbeat => cases h
  | raw => cases h

/-- A request whose turn has come is answered as it should be. -/
def Request.Answerable (book : OrderBook) : Request → Prop
  | .newOrder msg => book.Admits msg.args
  | .cancelOrder _ => True
  | .modifyOrder msg => book.orderOf msg.id ≠ none ∧ 0 < msg.newQuantity

/-- The engine's answer to a request settles it. -/
theorem Request.Answerable.settles {e e' : MatchingEngine} {ord : HashOrder} {request : Request}
    (h : request.Answerable e.book) (hcall : e.perform ord request.call = some e') (r : Nat) :
    Outcome.Settles ⟨r, request.refusal e.book, e.book, e'.book⟩ request := by
  have happlied : request.AppliedTo e.book e'.book := ⟨e, ord, e', hcall, rfl, rfl⟩
  cases hr : request.refusal e.book with
  | some msg =>
    have hbook := MatchingEngine.book_of_refusal hr hcall
    cases request with
    | newOrder msg => cases hr
    | cancelOrder msg =>
      rw [refusal] at hr
      split_ifs at hr with hnone
      obtain rfl := Option.some.inj hr
      exact ⟨rfl, hnone, hbook⟩
    | modifyOrder msg =>
      rw [refusal] at hr
      split_ifs at hr with hfits
      obtain rfl := Option.some.inj hr
      obtain ⟨o, ho⟩ := Option.ne_none_iff_exists'.mp h.1
      exact ⟨rfl, ⟨o, ho, not_le.mp fun hle => hfits ⟨o, ho, h.2, hle⟩⟩, hbook⟩
  | none =>
    refine ⟨?_, happlied⟩
    cases request with
    | newOrder msg => exact h
    | cancelOrder msg =>
      rw [refusal] at hr
      split_ifs at hr with hnone
      exact hnone
    | modifyOrder msg =>
      rw [refusal] at hr
      split_ifs at hr with hfits
      exact hfits

private theorem bufferOf_acceptClient (clients : List ClientConn) (sock : Int) (conn idx : Nat) :
    bufferOf (TcpServer.acceptClient clients sock conn) idx = bufferOf clients idx := by
  rw [TcpServer.acceptClient]
  split
  · rfl
  rcases lt_trichotomy idx clients.length with hlt | rfl | hgt
  · rw [bufferOf, bufferOf, List.getElem?_append_left hlt]
  · simp [bufferOf]
  · rw [bufferOf, bufferOf, List.getElem?_eq_none hgt.le, List.getElem?_eq_none (by simpa using hgt)]

/-- A reject is appended to the buffer of its client. -/
theorem bufferOf_sendReject {clients : List ClientConn} {k : Nat} (hk : k < clients.length)
    (hopen : invalidSock ∉ clients.map (·.sock)) (id : OrderId) (reason : RejectReason)
    (request idx : Nat) :
    bufferOf (TcpServer.sendReject clients k id reason request) idx =
      bufferOf clients idx ++ if k = idx then [⟨.reject ⟨id, reason⟩, request⟩] else [] := by
  rw [bufferOf, bufferOf, TcpServer.sendReject, List.getElem?_modify]
  by_cases hidx : k = idx
  · subst hidx
    have hsock : clients[k].sock ≠ invalidSock := fun h =>
      hopen (h ▸ List.mem_map_of_mem (List.getElem_mem hk))
    simp [List.getElem?_eq_getElem hk, ClientConn.sendBuffer_send hsock]
  · simp [hidx]

/-- A snapshot that is broadcast is no reject. -/
theorem rejectIn_broadcast (clients : List ClientConn) (msg : BookUpdateMsg) (tag idx r : Nat) :
    (bufferOf (TcpServer.broadcast clients ⟨.bookUpdate msg, tag⟩) idx).filterMap (rejectIn r) =
      (bufferOf clients idx).filterMap (rejectIn r) := by
  rw [bufferOf, bufferOf, TcpServer.broadcast, List.getElem?_map]
  cases clients[idx]? with
  | none => rfl
  | some c =>
    by_cases hsock : c.sock = invalidSock
    · simp [ClientConn.send, hsock]
    · simp [ClientConn.sendBuffer_send hsock, rejectIn]

namespace System

variable {s s' : System} {a : Action}

/-- A command that is answered leads to one outcome. -/
theorem commandOutcome_eq {cmd : Tagged ClientCommand} {e' : MatchingEngine} {ord : HashOrder}
    {after : OrderBook} (h : cmd.item.payload.Answerable s.engine.book) :
    s.commandOutcome cmd (MatchingEngine.answer cmd.item s.engine.book e' ord) after =
      [⟨cmd.request, cmd.item.payload.refusal s.engine.book, s.engine.book, after⟩] := by
  rw [MatchingEngine.answer]
  cases hr : cmd.item.payload.refusal s.engine.book with
  | some msg => rfl
  | none =>
    cases hp : cmd.item.payload with
    | newOrder msg =>
      rw [hp] at h
      simp only [commandOutcome, MatchingEngine.updateEvent, hp]
      exact if_pos h
    | cancelOrder msg => simp only [commandOutcome, MatchingEngine.updateEvent, hp]
    | modifyOrder msg => simp only [commandOutcome, MatchingEngine.updateEvent, hp]

/-- The accounts of a running system: where the queued commands stem from, and that numbers
of messages to come are not in use. -/
structure Tracked (s : System) : Prop extends Accounted s where
  shows : ∃ v, s.engine.book.Shows v
  queued : ∀ cmd ∈ s.commands, ∃ msg, s.received[cmd.request]? = some msg ∧
    msg.clientIdx = cmd.item.clientIdx ∧
    Request.ofMessage msg.type msg.payload = some cmd.item.payload ∧
    ∀ m, cmd.item.payload = .modifyOrder m → 0 < m.newQuantity
  senders : ∀ msg ∈ s.received, msg.clientIdx < s.clients.length
  sockets : invalidSock ∉ s.clients.map (·.sock)
  numbered : ∀ o ∈ s.outcomes, o.request < s.received.length
  unanswered : ∀ idx r, s.received.length ≤ r → s.rejects idx r = []

private theorem tracked_init (fees : FeeSchedule) : (init fees).Tracked where
  once r hr := absurd hr (Nat.not_lt_zero r)
  settled r msg request hmsg := by cases hmsg
  applied := .nil
  delivered r msg hmsg := by cases hmsg
  shows := ⟨_, OrderBook.shows_init⟩
  queued cmd hcmd := by cases hcmd
  senders msg hmsg := by cases hmsg
  sockets := List.not_mem_nil
  numbered o ho := by cases ho
  unanswered idx r _ := rfl

/-- Moving rejects along does not change the accounts. -/
theorem Tracked.move (h : s.Tracked) {clients : List ClientConn} {events : List (Tagged EngineEvent)}
    {pending : Option (Tagged EngineEvent)} {connections : Nat}
    (hrejects : ∀ idx r, { s with clients, events, pending, connections : System }.rejects idx r =
      s.rejects idx r)
    (hlength : s.clients.length ≤ clients.length) (hsockets : invalidSock ∉ clients.map (·.sock)) :
    { s with clients, events, pending, connections : System }.Tracked where
  once := h.once
  settled := h.settled
  applied := h.applied
  delivered r msg hmsg idx := (hrejects idx r).trans (h.delivered r msg hmsg idx)
  shows := h.shows
  queued := h.queued
  senders msg hmsg := (h.senders msg hmsg).trans_le hlength
  sockets := hsockets
  numbered := h.numbered
  unanswered idx r hr := (hrejects idx r).trans (h.unanswered idx r hr)

private theorem Tracked.accept (h : s.Tracked) {sock : Int} (hs : s.step (.accept sock) = some s') :
    s'.Tracked := by
  obtain rfl := Option.some.inj hs
  refine h.move (fun idx r => ?_) ?_ ?_
  · rw [rejects, rejects, bufferOf_acceptClient]
  · rw [TcpServer.acceptClient]
    split
    · exact le_rfl
    · simp
  · rw [TcpServer.acceptClient]
    split
    · exact h.sockets
    · rename_i hsock
      simp only [List.map_append, List.mem_append, not_or]
      exact ⟨h.sockets, by simpa using Ne.symm hsock⟩

private theorem Tracked.publish (h : s.Tracked) (hs : s.step .publish = some s') : s'.Tracked := by
  obtain ⟨event, hpending, -, rfl⟩ := step_publish hs
  refine h.move (fun idx r => ?_) le_rfl h.sockets
  rw [rejects, rejects, hpending, Option.toList_none, Option.toList_some, List.append_nil]

/-- A reject on its way has a receiver. -/
theorem Tracked.receiver (h : s.Tracked) {event : Tagged EngineEvent} {msg : RejectMsg}
    (hevent : event ∈ s.events) (hmsg : event.item.payload = .reject msg) :
    event.item.clientIdx < s.clients.length := by
  have hmem : msg ∈ s.rejects event.item.clientIdx event.request := by
    refine List.mem_append_right _ (List.mem_filterMap.mpr ⟨event, ?_, ?_⟩)
    · exact List.mem_append_left _ hevent
    · rw [rejectTo, if_pos rfl, rejectIn, hmsg]
      exact if_pos rfl
  rcases lt_or_ge event.request s.received.length with hlt | hge
  · rw [h.delivered _ _ (List.getElem?_eq_getElem hlt)] at hmem
    split at hmem
    · rename_i hidx
      rw [hidx]
      exact h.senders _ (List.getElem_mem hlt)
    · cases hmem
  · rw [h.unanswered _ _ hge] at hmem
    cases hmem

private theorem Tracked.consume (h : s.Tracked) (hs : s.step .consume = some s') : s'.Tracked := by
  obtain ⟨event, events, hevents, rfl⟩ := step_consume hs
  have hlength := congrArg List.length
    (TcpServer.map_consumeEvent s.clients ClientConn.sock_send event)
  rw [List.length_map, List.length_map] at hlength
  refine h.move (fun idx r => ?_) hlength.ge ?_
  · rw [rejects, rejects, hevents, TcpServer.consumeEvent]
    cases hp : event.item.payload with
    | fill msg => simp [rejectTo, rejectIn, hp]
    | bookUpdate msg =>
      simp only [rejectIn_broadcast]
      simp [rejectTo, rejectIn, hp]
    | reject msg =>
      -- the reject leaves the front of the queue for the end of the buffer
      have hidx := h.receiver (hevents ▸ List.mem_cons_self) hp
      simp only [bufferOf_sendReject hidx h.sockets]
      by_cases hk : event.item.clientIdx = idx <;> by_cases hr : event.request = r <;>
        simp [rejectTo, rejectIn, hp, hk, hr]
  · rw [TcpServer.map_consumeEvent _ ClientConn.sock_send]
    exact h.sockets

/-- The next message has neither a command nor an outcome yet. -/
theorem Tracked.commandsOf_next (h : s.Tracked) : s.commandsOf s.received.length = [] := by
  refine List.filter_eq_nil_iff.mpr fun cmd hcmd => ?_
  obtain ⟨msg, hmsg, -⟩ := h.queued cmd hcmd
  have hlt := (List.getElem?_eq_some_iff.mp hmsg).1
  simpa using hlt.ne

private theorem Tracked.outcomesOf_next (h : s.Tracked) : s.outcomesOf s.received.length = [] := by
  refine List.filter_eq_nil_iff.mpr fun o ho => ?_
  simpa using (h.numbered o ho).ne

/-- The record of a message is an old one or the new one. -/
theorem received_concat {received : List Received} {last msg : Received} {r : Nat}
    (h : (received ++ [last])[r]? = some msg) :
    received[r]? = some msg ∨ r = received.length ∧ msg = last := by
  rcases lt_or_ge r received.length with hlt | hge
  · rw [List.getElem?_append_left hlt] at h
    exact Or.inl h
  · rw [List.getElem?_append_right hge, List.getElem?_singleton] at h
    split_ifs at h with hr
    exact Or.inr ⟨by omega, (Option.some.inj h).symm⟩

/-- The rejects after the server's own answer to the next message. -/
theorem Tracked.rejects_sendReject (h : s.Tracked) {idx : Nat} (hidx : idx < s.clients.length)
    (id : OrderId) (reason : RejectReason) (k r : Nat) :
    { s with clients := TcpServer.sendReject s.clients idx id reason s.received.length }.rejects k r =
      if r = s.received.length then (if k = idx then [⟨id, reason⟩] else []) else s.rejects k r := by
  rw [rejects, bufferOf_sendReject hidx h.sockets, List.filterMap_append]
  by_cases hr : r = s.received.length
  · have hnone := h.unanswered k r hr.ge
    rw [rejects, List.append_eq_nil_iff] at hnone
    rw [hnone.1, hnone.2, if_pos hr]
    by_cases hk : k = idx
    · simp [hk, hr, rejectIn]
    · simp [hk, Ne.symm hk]
  · rw [if_neg hr, rejects]
    by_cases hk : idx = k
    · simp [hk, Ne.symm hr, rejectIn]
    · simp [hk]

/-- A list of items that all carry one number. -/
theorem filter_number {α : Type} {number : α → Nat} {items : List α} {n : Nat}
    (h : ∀ x ∈ items, number x = n) (r : Nat) :
    items.filter (number · = r) = if r = n then items else [] := by
  split_ifs with hr
  · exact List.filter_eq_self.mpr fun x hx => by simp [h x hx, hr]
  · exact List.filter_eq_nil_iff.mpr fun x hx => by simp [h x hx, Ne.symm hr]

private theorem filterMap_single {α β : Type} (f : α → Option β) (x : α) :
    [x].filterMap f = (f x).toList := by
  cases h : f x <;> simp [h]

/-- The next message is accounted for by one command or one outcome. -/
theorem Tracked.next (h : s.Tracked) (last : Received) {cmds : List (Tagged ClientCommand)}
    {outs : List Outcome} (hengine : s'.engine = s.engine)
    (hreceived : s'.received = s.received ++ [last]) (hcommands : s'.commands = s.commands ++ cmds)
    (houtcomes : s'.outcomes = s.outcomes ++ outs) (hone : cmds.length + outs.length = 1)
    (hcmds : ∀ cmd ∈ cmds, cmd.request = s.received.length ∧ last.clientIdx = cmd.item.clientIdx ∧
      Request.ofMessage last.type last.payload = some cmd.item.payload ∧
      ∀ m, cmd.item.payload = .modifyOrder m → 0 < m.newQuantity)
    (houts : ∀ o ∈ outs, o.request = s.received.length ∧ ∀ request,
      Request.ofMessage last.type last.payload = some request → o.Settles request)
    (hchained : Chained OrderBook.init s'.outcomes s.engine.book)
    (hsocks : s'.clients.map (·.sock) = s.clients.map (·.sock))
    (hlast : last.clientIdx < s.clients.length)
    (hrejects : ∀ k r, s'.rejects k r = if r = s.received.length then
      (if k = last.clientIdx then outs.filterMap (·.reject) else []) else s.rejects k r) :
    s'.Tracked := by
  have hlength := congrArg List.length hsocks
  rw [List.length_map, List.length_map] at hlength
  have hcmdsOf : ∀ r, s'.commandsOf r =
      s.commandsOf r ++ if r = s.received.length then cmds else [] := fun r => by
    rw [commandsOf, hcommands, List.filter_append, filter_number fun cmd hcmd => (hcmds cmd hcmd).1]
    rfl
  have houtsOf : ∀ r, s'.outcomesOf r =
      s.outcomesOf r ++ if r = s.received.length then outs else [] := fun r => by
    rw [outcomesOf, houtcomes, List.filter_append, filter_number fun o ho => (houts o ho).1]
    rfl
  refine { once := ?_, settled := ?_, applied := ?_, delivered := ?_, shows := ?_, queued := ?_,
           senders := ?_, sockets := ?_, numbered := ?_, unanswered := ?_ }
  · intro r hr
    rw [hreceived, List.length_append, List.length_singleton, Nat.lt_succ_iff] at hr
    rw [hcmdsOf, houtsOf]
    rcases hr.lt_or_eq with hlt | rfl
    · rw [if_neg hlt.ne, if_neg hlt.ne, List.append_nil, List.append_nil]
      exact h.once r hlt
    · rw [if_pos rfl, if_pos rfl, h.commandsOf_next, h.outcomesOf_next]
      exact hone
  · intro r msg request hmsg hrequest o ho
    rw [houtsOf, List.mem_append] at ho
    rw [hreceived] at hmsg
    rcases received_concat hmsg with hmsg | ⟨rfl, rfl⟩
    · rw [if_neg (List.getElem?_eq_some_iff.mp hmsg).1.ne] at ho
      exact h.settled r msg request hmsg hrequest o (ho.resolve_right List.not_mem_nil)
    · rw [h.outcomesOf_next, if_pos rfl] at ho
      exact (houts o (ho.resolve_left List.not_mem_nil)).2 request hrequest
  · rw [hengine]
    exact hchained
  · intro r msg hmsg k
    rw [hrejects, houtsOf]
    rw [hreceived] at hmsg
    rcases received_concat hmsg with hmsg | ⟨rfl, rfl⟩
    · have hlt := (List.getElem?_eq_some_iff.mp hmsg).1
      rw [if_neg hlt.ne, if_neg hlt.ne, List.append_nil]
      exact h.delivered r msg hmsg k
    · rw [if_pos rfl, if_pos rfl, h.outcomesOf_next, List.nil_append]
  · rw [hengine]
    exact h.shows
  · intro cmd hcmd
    rw [hcommands, List.mem_append] at hcmd
    rw [hreceived]
    rcases hcmd with hcmd | hcmd
    · obtain ⟨msg, hmsg, hrest⟩ := h.queued cmd hcmd
      rw [List.getElem?_append_left (List.getElem?_eq_some_iff.mp hmsg).1]
      exact ⟨msg, hmsg, hrest⟩
    · obtain ⟨hnumber, hrest⟩ := hcmds cmd hcmd
      rw [hnumber, List.getElem?_concat_length]
      exact ⟨last, rfl, hrest⟩
  · intro msg hmsg
    rw [hlength]
    rw [hreceived, List.mem_append, List.mem_singleton] at hmsg
    rcases hmsg with hmsg | rfl
    · exact h.senders msg hmsg
    · exact hlast
  · rw [hsocks]
    exact h.sockets
  · intro o ho
    rw [houtcomes, List.mem_append] at ho
    rw [hreceived, List.length_append, List.length_singleton]
    rcases ho with ho | ho
    · exact Nat.lt_succ_of_lt (h.numbered o ho)
    · exact (houts o ho).1 ▸ Nat.lt_succ_self _
  · intro k r hr
    rw [hreceived, List.length_append, List.length_singleton] at hr
    rw [hrejects, if_neg (by omega)]
    exact h.unanswered k r (by omega)

private theorem Tracked.message (h : s.Tracked) {idx : Nat} {type : MsgType} {payload : List UInt8}
    (horderly : (Action.message idx type payload).Orderly)
    (hok : KeepsTrack s (.message idx type payload))
    (hs : s.step (.message idx type payload) = some s') : s'.Tracked := by
  obtain ⟨request, hrequest⟩ := Option.isSome_iff_exists.mp horderly
  obtain ⟨client, hclient, hcases⟩ := step_message hs
  have hidx := (List.getElem?_eq_some_iff.mp hclient).1
  rcases screen_of_complete s.engine.book hrequest with hscreen | ⟨reason, hscreen, hreason⟩
  · rcases hcases with ⟨id, reason, hother, -⟩ | ⟨request', hsame, rfl⟩ | ⟨hother, -⟩
    · cases hscreen.symm.trans hother
    · obtain rfl := TcpServer.Screening.forward.inj (hscreen.symm.trans hsame)
      refine h.next ⟨client.conn, idx, type, payload⟩ rfl rfl (push_of_room _ (hok request hscreen))
        (List.append_nil _).symm rfl ?_ ?_ h.applied rfl hidx ?_
      · intro cmd hcmd
        obtain rfl := List.mem_singleton.mp hcmd
        refine ⟨rfl, rfl, hrequest, fun m hm => ?_⟩
        obtain rfl : request = .modifyOrder m := hm
        exact (TcpServer.screened_of_forward hscreen).2.2.1
      · intro o ho
        cases ho
      · intro k r
        split_ifs with hr hk
        · exact h.unanswered k r hr.ge
        · exact h.unanswered k r hr.ge
        · rfl
    · cases hscreen.symm.trans hother
  · rcases hcases with ⟨id, reason', hsame, rfl⟩ | ⟨request', hother, -⟩ | ⟨hother, -⟩
    · obtain ⟨rfl, rfl⟩ := TcpServer.Screening.reject.inj (hscreen.symm.trans hsame)
      refine h.next ⟨client.conn, idx, type, payload⟩ rfl rfl (List.append_nil _).symm rfl rfl ?_ ?_
        (.snoc h.applied) (TcpServer.map_sendReject _ ClientConn.sock_send ..) hidx
        (h.rejects_sendReject hidx request.id reason)
      · intro cmd hcmd
        cases hcmd
      · intro o ho
        obtain rfl := List.mem_singleton.mp ho
        refine ⟨rfl, fun request' hrequest' => ?_⟩
        obtain rfl := Option.some.inj (hrequest.symm.trans hrequest')
        exact ⟨rfl, hreason, rfl⟩
    · cases hscreen.symm.trans hother
    · cases hscreen.symm.trans hother

/-- The first command of the queue is answered when its turn comes. -/
theorem Tracked.answerable (h : s.Tracked) {cmd : Tagged ClientCommand} {ord : HashOrder}
    (hcmd : cmd ∈ s.commands.head?) (hok : KeepsTrack s (.process ord)) :
    cmd.item.payload.Answerable s.engine.book := by
  obtain ⟨msg, -, -, -, hpos⟩ := h.queued cmd (List.mem_of_mem_head? hcmd)
  have hturn := hok cmd hcmd
  cases hp : cmd.item.payload with
  | newOrder m =>
    rw [hp] at hturn
    exact hturn
  | cancelOrder m => trivial
  | modifyOrder m =>
    rw [hp] at hturn
    exact ⟨hturn, hpos m hp⟩

/-- The reject of a processed command, for its sender. -/
theorem rejectTo_answer (cmd : Tagged ClientCommand) (book : OrderBook) (e' : MatchingEngine)
    (ord : HashOrder) (k r : Nat) :
    (rejectTo k r ⟨MatchingEngine.answer cmd.item book e' ord, cmd.request⟩).toList =
      if r = cmd.request ∧ k = cmd.item.clientIdx then (cmd.item.payload.refusal book).toList
      else [] := by
  rw [MatchingEngine.answer]
  cases cmd.item.payload.refusal book with
  | none =>
    rw [rejectTo, rejectIn, MatchingEngine.updateEvent, Option.toList_none, ite_self, ite_self]
    rfl
  | some msg =>
    by_cases hk : cmd.item.clientIdx = k
    · by_cases hr : r = cmd.request
      · simp [rejectTo, rejectIn, hk, hr]
      · simp [rejectTo, rejectIn, hr, Ne.symm hr]
    · simp [rejectTo, hk, Ne.symm hk]

/-- A command whose turn has come is settled by one outcome. -/
theorem Tracked.turn (h : s.Tracked) {cmd : Tagged ClientCommand} {o : Outcome}
    (hcommands : s.commands = cmd :: s'.commands) (hreceived : s'.received = s.received)
    (hclients : s'.clients = s.clients) (houtcomes : s'.outcomes = s.outcomes ++ [o])
    (hnumber : cmd.request = o.request) (hsettles : o.Settles cmd.item.payload)
    (hbook : o.book = s.engine.book) (hafter : o.after = s'.engine.book)
    (hshows : ∃ v, s'.engine.book.Shows v)
    (hrejects : ∀ k r, s'.rejects k r = s.rejects k r ++
      if r = o.request ∧ k = cmd.item.clientIdx then o.reject.toList else []) : s'.Tracked := by
  obtain ⟨sent, hsent, hidx, hrequest, -⟩ := h.queued cmd (hcommands ▸ List.mem_cons_self)
  rw [hnumber] at hsent
  have hcmdsOf : ∀ r, s.commandsOf r =
      (if r = o.request then [cmd] else []) ++ s'.commandsOf r := fun r => by
    rw [commandsOf, hcommands, ← List.singleton_append, List.filter_append,
      filter_number (List.forall_mem_singleton.mpr hnumber)]
    rfl
  have houtsOf : ∀ r, s'.outcomesOf r =
      s.outcomesOf r ++ if r = o.request then [o] else [] := fun r => by
    rw [outcomesOf, houtcomes, List.filter_append, filter_number (List.forall_mem_singleton.mpr rfl)]
    rfl
  have hfirst : s'.commandsOf o.request = [] ∧ s.outcomesOf o.request = [] := by
    have hone := h.once _ (List.getElem?_eq_some_iff.mp hsent).1
    rw [hcmdsOf, if_pos rfl, List.length_append, List.length_singleton] at hone
    exact ⟨List.length_eq_zero_iff.mp (by omega), List.length_eq_zero_iff.mp (by omega)⟩
  refine { once := ?_, settled := ?_, applied := ?_, delivered := ?_, shows := hshows, queued := ?_,
           senders := ?_, sockets := ?_, numbered := ?_, unanswered := ?_ }
  · intro r hr
    rw [hreceived] at hr
    have hone := h.once r hr
    rw [hcmdsOf] at hone
    rw [houtsOf]
    by_cases hturn : r = o.request
    · subst hturn
      rw [hfirst.1, hfirst.2, if_pos rfl]
      rfl
    · rw [if_neg hturn, List.nil_append] at hone
      rw [if_neg hturn, List.append_nil]
      exact hone
  · intro r msg request hmsg hrequest' o' ho'
    rw [hreceived] at hmsg
    rw [houtsOf] at ho'
    by_cases hturn : r = o.request
    · subst hturn
      obtain rfl := Option.some.inj (hsent.symm.trans hmsg)
      obtain rfl := Option.some.inj (hrequest.symm.trans hrequest')
      rw [hfirst.2, if_pos rfl, List.nil_append, List.mem_singleton] at ho'
      rwa [ho']
    · rw [if_neg hturn, List.append_nil] at ho'
      exact h.settled r msg request hmsg hrequest' o' ho'
  · rw [houtcomes, ← hafter]
    exact .snoc (hbook ▸ h.applied)
  · intro r msg hmsg k
    rw [hreceived] at hmsg
    rw [hrejects, houtsOf, h.delivered r msg hmsg k]
    by_cases hturn : r = o.request
    · subst hturn
      obtain rfl := Option.some.inj (hsent.symm.trans hmsg)
      rw [hfirst.2, ← hidx]
      by_cases hk : k = sent.clientIdx
      · simp [hk, filterMap_single]
      · simp [hk]
    · simp [hturn]
  · intro cmd' hcmd'
    rw [hreceived]
    exact h.queued cmd' (hcommands ▸ List.mem_cons_of_mem _ hcmd')
  · rw [hreceived, hclients]
    exact h.senders
  · rw [hclients]
    exact h.sockets
  · intro o' ho'
    rw [houtcomes, List.mem_append, List.mem_singleton] at ho'
    rw [hreceived]
    rcases ho' with ho' | rfl
    · exact h.numbered o' ho'
    · exact (List.getElem?_eq_some_iff.mp hsent).1
  · intro k r hr
    rw [hreceived] at hr
    have hlt := (List.getElem?_eq_some_iff.mp hsent).1
    rw [hrejects, h.unanswered k r hr, if_neg fun hturn => absurd hturn.1 (by omega)]
    rfl

private theorem Tracked.process (h : s.Tracked) {ord : HashOrder}
    (hok : KeepsTrack s (.process ord))
    (hs : s.step (.process ord) = some s') : s'.Tracked := by
  obtain ⟨hpending, cmd, commands, e', event, hcommands, hprocess, rfl⟩ := step_process hs
  have hanswer : cmd.item.payload.Answerable s.engine.book := by
    refine h.answerable ?_ hok
    rw [hcommands]
    rfl
  obtain ⟨v, hshows⟩ := h.shows
  obtain ⟨e'', trades, v', hcall, hperform, hshows', -⟩ :=
    MatchingEngine.processClientCommand_spec hshows ord cmd.item
  obtain ⟨rfl, rfl⟩ := Prod.mk.inj (Option.some.inj (hprocess.symm.trans hcall))
  rw [commandOutcome_eq hanswer]
  refine h.turn hcommands rfl rfl rfl rfl (hanswer.settles hperform cmd.request) rfl rfl
    ⟨v', hshows'⟩ fun k r => ?_
  rw [rejects, rejects, ← rejectTo_answer cmd s.engine.book e' ord, hpending]
  simp only [Option.toList_none, Option.toList_some, List.append_nil, List.filterMap_append,
    List.append_assoc, filterMap_single]

private theorem Tracked.step (h : s.Tracked) (horderly : a.Orderly) (hok : KeepsTrack s a)
    (hs : s.step a = some s') : s'.Tracked := by
  cases a with
  | accept sock => exact h.accept hs
  | remove idx => exact horderly.elim
  | message idx type payload => exact h.message horderly hok hs
  | consume => exact h.consume hs
  | process ord => exact h.process hok hs
  | publish => exact h.publish hs

private theorem Tracked.responsive (h : s.Tracked) : s.Responsive := by
  intro hpending hcommands ord
  obtain ⟨cmd, commands, hcmd⟩ := List.exists_cons_of_ne_nil hcommands
  obtain ⟨v, hshows⟩ := h.shows
  obtain ⟨e', trades, v', hcall, -⟩ :=
    MatchingEngine.processClientCommand_spec hshows ord cmd.item
  simp only [System.step, hpending, hcmd, hcall, Option.map_some, Option.isSome_some]

end System

/-- In every state the two threads reach, in any interleaving and with clients that stay and
complete messages, every message is queued or has its one outcome and the engine thread can go
on, if every forwarded command found room, every new order was taken by the book when its turn
came and every modify found its order. -/
theorem run_accounted (fees : FeeSchedule) (actions : List Action) {s : System}
    (horderly : ∀ a ∈ actions, a.Orderly)
    (hok : Machine.Meets System.step KeepsTrack (System.init fees) actions)
    (hrun : (System.init fees).run actions = some s) : s.Accounted ∧ s.Responsive := by
  have hmeets := (Machine.meets_of_forall System.step horderly (System.init fees)).and hok
  have htracked := hmeets.invariant System.Tracked (fun h hok hs => h.step hok.1 hok.2 hs)
    (System.tracked_init fees) hrun
  exact ⟨htracked.toAccounted, htracked.responsive⟩

/-- A new order that is applied, a cancel of an unknown order and a new order without quantity,
from two clients. -/
theorem run_accounted_two_clients :
    ∃ s, (System.init {}).run [.accept 3, .accept 4,
        .message 0 .newOrder (newOrderBytes 1 0 0 100 5),
        .message 1 .cancelOrder (cancelOrderBytes 7),
        .message 1 .newOrder (newOrderBytes 2 1 0 100 0), .process HashOrder.recent, .publish,
        .process HashOrder.recent, .publish, .consume, .consume] = some s ∧
      s.Accounted ∧ s.Responsive := by
  obtain ⟨s, hs⟩ : ∃ s, (System.init {}).run [.accept 3, .accept 4,
      .message 0 .newOrder (newOrderBytes 1 0 0 100 5),
      .message 1 .cancelOrder (cancelOrderBytes 7),
      .message 1 .newOrder (newOrderBytes 2 1 0 100 0), .process HashOrder.recent, .publish,
      .process HashOrder.recent, .publish, .consume, .consume] = some s :=
    Option.isSome_iff_exists.mp (by decide +kernel)
  exact ⟨s, hs, run_accounted {} _ (by decide +kernel) (by decide +kernel) hs⟩

/-- Two orders with one id pass the server's check while neither is in the book: when the second
one's turn comes it is neither applied nor rejected. -/
theorem duplicate_in_flight_is_lost :
    (∀ a ∈ [Action.accept 3, .message 0 .newOrder (newOrderBytes 1 0 0 100 5),
        .message 0 .newOrder (newOrderBytes 1 0 0 101 5), .process HashOrder.recent, .publish,
        .process HashOrder.recent], a.Orderly) ∧
      ∃ s, (System.init {}).run [.accept 3, .message 0 .newOrder (newOrderBytes 1 0 0 100 5),
        .message 0 .newOrder (newOrderBytes 1 0 0 101 5), .process HashOrder.recent, .publish,
        .process HashOrder.recent] = some s ∧ ¬ s.Accounted := by
  refine ⟨by decide +kernel, Option.get _ (by decide +kernel), (Option.some_get _).symm, fun h => ?_⟩
  exact absurd (h.once 1 (by decide +kernel)) (by decide +kernel)

end LiquidityArena

import LiquidityArena.View.Threads

/-!
# The two threads as one

However the threads interleave, the engine and the events it has emitted are those of a
server that handles one request after the other: the requests it has handled, followed by
the ones still queued, are a part of the requests read, in the order in which they were
read. What a client was sent are the snapshots delivered since it connected.
-/

namespace LiquidityArena

open OrderBook

/-- The command a message asks for, if it is well formed. -/
def Received.command (m : Received) : Option ClientCommand :=
  match TcpServer.screen (fun _ => false) m.type m.payload with
  | .forward request => some ⟨m.clientIdx, request⟩
  | _ => none

/-- The commands the messages ask for, each with the number of its message. -/
def forwardedOf (received : List Received) : List (Tagged ClientCommand) :=
  received.zipIdx.filterMap fun entry => entry.1.command.map fun cmd => ⟨cmd, entry.2⟩

/-- A server that handles one command after the other, with the events it emits. -/
def MatchingEngine.serve (e : MatchingEngine) :
    List (HashOrder × Tagged ClientCommand) → Option (MatchingEngine × List (Tagged EngineEvent))
  | [] => some (e, [])
  | (ord, cmd) :: cmds =>
    (e.processClientCommand ord cmd.item).bind fun done =>
      (done.1.serve cmds).map fun rest => (rest.1, ⟨done.2, cmd.request⟩ :: rest.2)

/-- The snapshot a message to a client carries. -/
def Report.snapshot : Report → Option BookUpdateMsg
  | .bookUpdate msg => some msg
  | _ => none

/-- The snapshots among the events. -/
def snapshotsOf (events : List (Tagged EngineEvent)) : List BookUpdateMsg :=
  events.filterMap (·.item.payload.snapshot)

/-- The snapshots a client was sent. -/
def ClientConn.snapshots (c : ClientConn) : List BookUpdateMsg :=
  c.sendBuffer.filterMap (·.item.snapshot)

/-- The event that a step delivers to the clients. -/
def System.delivery (s : System) : Action → List (Tagged EngineEvent)
  | .consume => s.events.head?.toList
  | _ => []

/-- The events that a run delivers. -/
def System.delivered (s : System) (actions : List Action) : List (Tagged EngineEvent) :=
  Machine.outputs step delivery s actions

/-- The events that a run delivers after it has accepted the connection with the number. -/
def System.deliveredTo (conn : Nat) (s : System) (actions : List Action) :
    List (Tagged EngineEvent) :=
  Machine.outputsSince step delivery (conn < ·.connections) s actions

/-- After the actions the system has handled the commands one after the other. -/
structure System.Serialized (fees : FeeSchedule) (actions : List Action) (s : System)
    (handled : List (HashOrder × Tagged ClientCommand)) : Prop where
  /-- Handled and queued commands are read requests in their order. -/
  order : (handled.map Prod.snd ++ s.commands).Sublist (forwardedOf s.received)
  /-- The engine and its events are those of the sequential server. -/
  engine : (MatchingEngine.init fees).serve handled =
    some (s.engine, (init fees).delivered actions ++ s.events ++ s.pending.toList)
  /-- Every client was sent the snapshots delivered since it connected. -/
  clients : ∀ c ∈ s.clients, c.sock ≠ invalidSock ∧ c.conn < s.connections ∧
    c.snapshots = snapshotsOf ((init fees).deliveredTo c.conn actions)

/-- What is forwarded does not depend on the ids in use. -/
theorem TcpServer.screen_of_forward {hasOrder : OrderId → Bool} {type : MsgType}
    {payload : List UInt8} {request : Request}
    (h : screen hasOrder type payload = .forward request) :
    screen (fun _ => false) type payload = .forward request := by
  unfold screen at h ⊢
  cases type with
  | newOrder =>
    dsimp only at h ⊢
    split_ifs at h with hsize hqty hprice hdup
    rwa [if_neg hsize, if_neg hqty, if_neg hprice, if_neg Bool.false_ne_true]
  | cancelOrder => exact h
  | modifyOrder => exact h
  | fill => exact h
  | bookUpdate => exact h
  | reject => exact h
  | heartbeat => exact h
  | raw => exact h

/-- A request that the server forwards is the command of its message. -/
theorem Received.command_of_forward {hasOrder : OrderId → Bool} {m : Received} {request : Request}
    (h : TcpServer.screen hasOrder m.type m.payload = .forward request) :
    m.command = some ⟨m.clientIdx, request⟩ := by
  rw [command, TcpServer.screen_of_forward h]

private theorem forwardedOf_concat (received : List Received) (m : Received) :
    forwardedOf (received ++ [m]) = forwardedOf received ++
      (m.command.map fun cmd => (⟨cmd, received.length⟩ : Tagged ClientCommand)).toList := by
  rw [forwardedOf, List.zipIdx_append, List.filterMap_append, forwardedOf]
  refine congrArg _ ?_
  rw [List.zipIdx_singleton, zero_add]
  cases hcommand : m.command <;> simp [hcommand]

/-- The sequential server goes on with one more command. -/
theorem MatchingEngine.serve_concat {e e₁ e' : MatchingEngine}
    {cmds : List (HashOrder × Tagged ClientCommand)} {events : List (Tagged EngineEvent)}
    {ord : HashOrder} {cmd : Tagged ClientCommand} {event : EngineEvent}
    (hserve : e.serve cmds = some (e₁, events))
    (hstep : e₁.processClientCommand ord cmd.item = some (e', event)) :
    e.serve (cmds ++ [(ord, cmd)]) = some (e', events ++ [⟨event, cmd.request⟩]) := by
  induction cmds generalizing e events with
  | nil =>
    obtain ⟨rfl, rfl⟩ := Prod.mk.inj (Option.some.inj hserve)
    rw [List.nil_append, serve, hstep]
    rfl
  | cons c cmds ih =>
    obtain ⟨done, hdone, hrest⟩ := Option.bind_eq_some_iff.mp hserve
    obtain ⟨rest, hrun, heq⟩ := Option.map_eq_some_iff.mp hrest
    obtain ⟨rfl, rfl⟩ := Prod.mk.inj heq
    rw [List.cons_append, serve, hdone, Option.bind_some, ih hrun]
    rfl

/-- A reject leaves the snapshots of all clients as they are. -/
theorem TcpServer.mem_sendReject_snapshots {clients : List ClientConn} {k request : Nat}
    {id : OrderId} {reason : RejectReason} {c : ClientConn}
    (h : c ∈ sendReject clients k id reason request) :
    ∃ c₀ ∈ clients, c.sock = c₀.sock ∧ c.conn = c₀.conn ∧ c.snapshots = c₀.snapshots := by
  obtain ⟨i, hi⟩ := List.mem_iff_getElem?.mp h
  rw [sendReject, List.getElem?_modify, Option.map_eq_map, Option.map_eq_some_iff] at hi
  obtain ⟨c₀, hc₀, rfl⟩ := hi
  refine ⟨c₀, List.mem_of_getElem? hc₀, ?_⟩
  split_ifs
  · refine ⟨c₀.sock_send _, c₀.conn_send _, ?_⟩
    rw [ClientConn.send]
    split_ifs
    · rfl
    · simp [ClientConn.snapshots, ClientConn.append, Report.snapshot]
  · exact ⟨rfl, rfl, rfl⟩

/-- An event reaches the snapshots of every client. -/
theorem TcpServer.mem_consumeEvent_snapshots {clients : List ClientConn} {event : Tagged EngineEvent}
    (hopen : ∀ c ∈ clients, c.sock ≠ invalidSock) {c : ClientConn}
    (h : c ∈ consumeEvent clients event) :
    ∃ c₀ ∈ clients, c.sock = c₀.sock ∧ c.conn = c₀.conn ∧
      c.snapshots = c₀.snapshots ++ event.item.payload.snapshot.toList := by
  obtain ⟨⟨idx, payload⟩, request⟩ := event
  cases payload with
  | fill msg => exact ⟨c, h, rfl, rfl, (List.append_nil _).symm⟩
  | reject msg =>
    obtain ⟨c₀, hc₀, hsock, hconn, hsnap⟩ := mem_sendReject_snapshots h
    exact ⟨c₀, hc₀, hsock, hconn, hsnap.trans (List.append_nil _).symm⟩
  | bookUpdate msg =>
    obtain ⟨c₀, hc₀, rfl⟩ := List.mem_map.mp h
    refine ⟨c₀, hc₀, c₀.sock_send _, c₀.conn_send _, ?_⟩
    rw [ClientConn.snapshots, ClientConn.sendBuffer_send (hopen c₀ hc₀), List.filterMap_append]
    rfl

namespace System

variable {fees : FeeSchedule} {actions : List Action} {s s' : System} {a : Action} {conn : Nat}

/-- Connections that were accepted stay counted. -/
theorem connections_le (hstep : s.step a = some s') : s.connections ≤ s'.connections := by
  cases a with
  | accept sock =>
    obtain rfl := Option.some.inj hstep
    exact Nat.le_succ _
  | remove idx =>
    obtain ⟨-, rfl⟩ := step_remove hstep
    exact le_rfl
  | message idx type payload =>
    obtain ⟨client, -, ⟨id, reason, -, rfl⟩ | ⟨request, -, rfl⟩ | ⟨-, rfl⟩⟩ := step_message hstep
    all_goals exact le_rfl
  | consume =>
    obtain ⟨event, events, -, rfl⟩ := step_consume hstep
    exact le_rfl
  | process ord =>
    obtain ⟨-, cmd, commands, e', event, -, -, rfl⟩ := step_process hstep
    exact le_rfl
  | publish =>
    obtain ⟨event, -, -, rfl⟩ := step_publish hstep
    exact le_rfl

private theorem delivered_concat (hrun : (init fees).run actions = some s) :
    (init fees).delivered (actions ++ [a]) = (init fees).delivered actions ++ s.delivery a :=
  Machine.outputs_concat hrun

private theorem deliveredTo_concat (hrun : (init fees).run actions = some s)
    (hconn : conn < s.connections) :
    (init fees).deliveredTo conn (actions ++ [a]) =
      (init fees).deliveredTo conn actions ++ s.delivery a := by
  rw [deliveredTo, Machine.outputsSince_concat hrun, if_pos hconn]
  rfl

/-- Nothing was delivered to a connection that was not accepted yet. -/
theorem deliveredTo_of_le (hrun : (init fees).run actions = some s) (hconn : s.connections ≤ conn) :
    (init fees).deliveredTo conn actions = [] :=
  Machine.outputsSince_of_not (fun hstep hlt => hlt.trans_le (connections_le hstep)) hrun
    (not_lt.mpr hconn)

/-- What was delivered to a connection is the end of what was delivered to an earlier one. -/
theorem deliveredTo_suffix {conn' : Nat} (hrun : (init fees).run actions = some s)
    (hle : conn' ≤ conn) :
    (init fees).deliveredTo conn actions <:+ (init fees).deliveredTo conn' actions :=
  Machine.outputsSince_suffix (fun hstep hlt => hlt.trans_le (connections_le hstep))
    (fun hlt => hle.trans_lt hlt) hrun

/-- What was delivered to a connection is the end of what was delivered. -/
theorem deliveredTo_suffix_delivered (hrun : (init fees).run actions = some s) :
    (init fees).deliveredTo conn actions <:+ (init fees).delivered actions :=
  Machine.outputsSince_suffix_outputs (fun hstep hlt => hlt.trans_le (connections_le hstep)) hrun

namespace Serialized

variable {handled : List (HashOrder × Tagged ClientCommand)}

private theorem init (fees : FeeSchedule) : (System.init fees).Serialized fees [] [] where
  order := List.Sublist.refl _
  engine := rfl
  clients _ hc := absurd hc List.not_mem_nil

/-- A step that delivers nothing and leaves queues and requests alone keeps the system serialized
when each of its clients is one from before or has just connected. -/
theorem of_clients (h : s.Serialized fees actions handled)
    (hrun : (System.init fees).run actions = some s) (hnone : s.delivery a = [])
    (horder : (handled.map Prod.snd ++ s'.commands).Sublist (forwardedOf s'.received))
    (hengine : s'.engine = s.engine)
    (hevents : s'.events ++ s'.pending.toList = s.events ++ s.pending.toList)
    (hmore : s.connections ≤ s'.connections)
    (hclients : ∀ c ∈ s'.clients, (∃ c₀ ∈ s.clients, c.sock = c₀.sock ∧ c.conn = c₀.conn ∧
        c.snapshots = c₀.snapshots) ∨ c.sock ≠ invalidSock ∧ c.conn = s.connections ∧
        s.connections < s'.connections ∧ c.snapshots = []) :
    s'.Serialized fees (actions ++ [a]) handled := by
  refine ⟨horder, ?_, fun c hc => ?_⟩
  · rw [h.engine, delivered_concat hrun, hnone, List.append_nil, hengine, List.append_assoc,
      List.append_assoc, hevents]
  · rcases hclients c hc with ⟨c₀, hc₀, hsock, hconn, hsnap⟩ | ⟨hsock, hconn, hlt, hsnap⟩
    · obtain ⟨hopen, hcounted, hsent⟩ := h.clients c₀ hc₀
      refine ⟨hsock ▸ hopen, hconn ▸ hcounted.trans_le hmore, ?_⟩
      rw [hsnap, hsent, hconn, deliveredTo_concat hrun hcounted, hnone, List.append_nil]
    · refine ⟨hsock, hconn ▸ hlt, ?_⟩
      rw [hsnap, hconn, deliveredTo, Machine.outputsSince_concat hrun, if_neg (lt_irrefl _),
        List.append_nil]
      exact (congrArg snapshotsOf (deliveredTo_of_le hrun le_rfl)).symm

private theorem accept (h : s.Serialized fees actions handled)
    (hrun : (System.init fees).run actions = some s) {sock : Int}
    (hstep : s.step (.accept sock) = some s') :
    s'.Serialized fees (actions ++ [.accept sock]) handled := by
  obtain rfl := Option.some.inj hstep
  refine h.of_clients hrun rfl h.order rfl rfl (Nat.le_succ _) fun c hc => ?_
  dsimp only [TcpServer.acceptClient] at hc
  split_ifs at hc with hsock
  · exact Or.inl ⟨c, hc, rfl, rfl, rfl⟩
  · rcases List.mem_append.mp hc with hc | hc
    · exact Or.inl ⟨c, hc, rfl, rfl, rfl⟩
    · obtain rfl := List.mem_singleton.mp hc
      exact Or.inr ⟨hsock, rfl, Nat.lt_succ_self _, rfl⟩

private theorem remove (h : s.Serialized fees actions handled)
    (hrun : (System.init fees).run actions = some s) {idx : Nat}
    (hstep : s.step (.remove idx) = some s') :
    s'.Serialized fees (actions ++ [.remove idx]) handled := by
  obtain ⟨-, rfl⟩ := step_remove hstep
  exact h.of_clients hrun rfl h.order rfl rfl le_rfl fun c hc =>
    Or.inl ⟨c, List.mem_of_mem_eraseIdx hc, rfl, rfl, rfl⟩

/-- A message that is read adds at most its own command to the requests and to the queue. -/
theorem message (h : s.Serialized fees actions handled)
    (hrun : (System.init fees).run actions = some s) {idx : Nat} {type : MsgType}
    {payload : List UInt8} (hstep : s.step (.message idx type payload) = some s') :
    s'.Serialized fees (actions ++ [.message idx type payload]) handled := by
  obtain ⟨client, -, hcases⟩ := step_message hstep
  have hmore := h.order.trans (List.sublist_append_left (forwardedOf s.received)
    ((Received.command ⟨client.conn, idx, type, payload⟩).map
      fun cmd => (⟨cmd, s.received.length⟩ : Tagged ClientCommand)).toList)
  rw [← forwardedOf_concat] at hmore
  rcases hcases with ⟨id, reason, -, rfl⟩ | ⟨request, hforward, rfl⟩ | ⟨-, rfl⟩
  · exact h.of_clients hrun rfl hmore rfl rfl le_rfl fun c hc =>
      Or.inl (TcpServer.mem_sendReject_snapshots hc)
  · refine h.of_clients hrun rfl ?_ rfl rfl le_rfl fun c hc => Or.inl ⟨c, hc, rfl, rfl, rfl⟩
    dsimp only [push, record]
    split_ifs
    · have hcommand := Received.command_of_forward
        (m := ⟨client.conn, idx, type, payload⟩) hforward
      rw [forwardedOf_concat, hcommand, ← List.append_assoc]
      exact h.order.append (List.Sublist.refl _)
    · exact hmore
  · exact h.of_clients hrun rfl hmore rfl rfl le_rfl fun c hc => Or.inl ⟨c, hc, rfl, rfl, rfl⟩

/-- An event that is consumed is delivered, to the snapshots of all clients. -/
theorem consume (h : s.Serialized fees actions handled)
    (hrun : (System.init fees).run actions = some s) (hstep : s.step .consume = some s') :
    s'.Serialized fees (actions ++ [.consume]) handled := by
  obtain ⟨event, events, hevents, rfl⟩ := step_consume hstep
  have hdelivery : s.delivery .consume = [event] := by rw [delivery, hevents]; rfl
  refine ⟨h.order, ?_, fun c hc => ?_⟩
  · rw [h.engine, delivered_concat hrun, hdelivery, hevents]
    simp only [List.append_assoc, List.cons_append, List.nil_append]
  · obtain ⟨c₀, hc₀, hsock, hconn, hsnap⟩ :=
      TcpServer.mem_consumeEvent_snapshots (fun _ hc => (h.clients _ hc).1) hc
    obtain ⟨hopen, hcounted, hsent⟩ := h.clients c₀ hc₀
    refine ⟨hsock ▸ hopen, hconn ▸ hcounted, ?_⟩
    rw [hsnap, hsent, hconn, deliveredTo_concat hrun hcounted, hdelivery, snapshotsOf, snapshotsOf,
      List.filterMap_append]
    cases hsnapshot : event.item.payload.snapshot <;> simp [hsnapshot]

/-- The engine thread handles the next command in its turn. -/
theorem process (h : s.Serialized fees actions handled)
    (hrun : (System.init fees).run actions = some s) {ord : HashOrder}
    (hstep : s.step (.process ord) = some s') :
    ∃ handled', s'.Serialized fees (actions ++ [.process ord]) handled' := by
  obtain ⟨hpending, cmd, commands, e', event, hcommands, hprocessed, rfl⟩ := step_process hstep
  have horder := h.order
  have hengine := h.engine
  rw [hcommands] at horder
  rw [hpending, Option.toList_none, List.append_nil] at hengine
  refine ⟨handled ++ [(ord, cmd)], ?_, ?_, fun c hc => ?_⟩
  · rwa [List.map_append, List.append_assoc]
  · rw [delivered_concat hrun]
    exact (MatchingEngine.serve_concat hengine hprocessed).trans (by simp [delivery])
  · obtain ⟨hopen, hcounted, hsent⟩ := h.clients c hc
    refine ⟨hopen, hcounted, ?_⟩
    rw [hsent, deliveredTo_concat hrun hcounted]
    exact congrArg snapshotsOf (List.append_nil _).symm

private theorem publish (h : s.Serialized fees actions handled)
    (hrun : (System.init fees).run actions = some s) (hstep : s.step .publish = some s') :
    s'.Serialized fees (actions ++ [.publish]) handled := by
  obtain ⟨event, hpending, -, rfl⟩ := step_publish hstep
  refine h.of_clients hrun rfl h.order rfl ?_ le_rfl fun c hc => Or.inl ⟨c, hc, rfl, rfl, rfl⟩
  rw [hpending, Option.toList_some, Option.toList_none, List.append_nil]

/-- Every step of either thread keeps the system serialized. -/
theorem step (h : ∃ handled, s.Serialized fees actions handled)
    (hrun : (System.init fees).run actions = some s) (hstep : s.step a = some s') :
    ∃ handled, s'.Serialized fees (actions ++ [a]) handled := by
  obtain ⟨handled, h⟩ := h
  cases a with
  | accept sock => exact ⟨_, h.accept hrun hstep⟩
  | remove idx => exact ⟨_, h.remove hrun hstep⟩
  | message idx type payload => exact ⟨_, h.message hrun hstep⟩
  | consume => exact ⟨_, h.consume hrun hstep⟩
  | process ord => exact h.process hrun hstep
  | publish => exact ⟨_, h.publish hrun hstep⟩

end Serialized

/-- After every run the system is serialized. -/
theorem exists_serialized (hrun : (init fees).run actions = some s) :
    ∃ handled, s.Serialized fees actions handled :=
  Machine.history_invariant (fun past s₁ => ∃ handled, s₁.Serialized fees past handled)
    ⟨[], Serialized.init fees⟩ (fun hbefore h hlast => Serialized.step h hbefore hlast) hrun

end System

/-- The sequential server makes the calls of its commands. -/
theorem MatchingEngine.run_of_serve {e e' : MatchingEngine} {v : BookView} (h : e.book.Shows v)
    {cmds : List (HashOrder × Tagged ClientCommand)} {events : List (Tagged EngineEvent)}
    (hserve : e.serve cmds = some (e', events)) :
    e.run (cmds.map fun c => (c.1, c.2.item.payload.call)) = some e' := by
  induction cmds generalizing e v events with
  | nil =>
    obtain ⟨rfl, -⟩ := Prod.mk.inj (Option.some.inj hserve)
    rfl
  | cons c cmds ih =>
    obtain ⟨done, hdone, hrest⟩ := Option.bind_eq_some_iff.mp hserve
    obtain ⟨rest, hserve', heq⟩ := Option.map_eq_some_iff.mp hrest
    obtain ⟨rfl, -⟩ := Prod.mk.inj heq
    obtain ⟨e₁, trades, v₁, hprocessed, hcall, h₁, -⟩ :=
      processClientCommand_spec h c.1 c.2.item
    obtain rfl := Option.some.inj (hprocessed.symm.trans hdone)
    rw [List.map_cons, run, hcall]
    exact ih h₁ hserve'

/-- After every interleaving of the two threads, the engine and all events it has emitted are those
of a server that handles a part of the requests one after the other in the order in which they
were read, the queued commands are later ones of them, and every client was sent the snapshots
delivered since it connected. So the engine is the one that a run of the handled calls leads to. -/
theorem run_serialized (fees : FeeSchedule) (actions : List Action) {s : System}
    (hrun : (System.init fees).run actions = some s) :
    ∃ handled, s.Serialized fees actions handled ∧
      (MatchingEngine.init fees).run (handled.map fun c => (c.1, c.2.item.payload.call)) =
        some s.engine := by
  obtain ⟨handled, h⟩ := System.exists_serialized hrun
  exact ⟨handled, h, MatchingEngine.run_of_serve OrderBook.shows_init h.engine⟩

/-- A client that connects between two orders gets the snapshot of the second only. -/
theorem run_serialized_two_clients :
    ∃ s handled, (System.init {}).run [.accept 3, .message 0 .newOrder (newOrderBytes 1 0 0 100 5),
        .process HashOrder.recent, .publish, .consume, .accept 4,
        .message 0 .newOrder (newOrderBytes 2 1 0 101 5), .process HashOrder.recent, .publish,
        .consume] = some s ∧
      s.clients.map (·.snapshots.length) = [2, 1] ∧
      s.Serialized {} [.accept 3, .message 0 .newOrder (newOrderBytes 1 0 0 100 5),
        .process HashOrder.recent, .publish, .consume, .accept 4,
        .message 0 .newOrder (newOrderBytes 2 1 0 101 5), .process HashOrder.recent, .publish,
        .consume] handled := by
  obtain ⟨s, hs, hsent⟩ : ∃ s, (System.init {}).run [.accept 3,
      .message 0 .newOrder (newOrderBytes 1 0 0 100 5),
      .process HashOrder.recent, .publish, .consume, .accept 4,
      .message 0 .newOrder (newOrderBytes 2 1 0 101 5), .process HashOrder.recent, .publish,
      .consume] = some s ∧ s.clients.map (·.snapshots.length) = [2, 1] :=
    ⟨Option.get _ (by decide +kernel), (Option.some_get _).symm, by decide +kernel⟩
  obtain ⟨handled, hserialized, -⟩ := run_serialized {} _ hs
  exact ⟨s, handled, hs, hsent, hserialized⟩

end LiquidityArena

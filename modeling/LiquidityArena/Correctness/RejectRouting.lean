import LiquidityArena.View.Threads

/-!
# Who receives a reject

Commands and events name a client by its position in the vector of connections. The
position stays right as long as no connection in front of it is closed while something
is on its way, and no new connection takes the position of one that is gone.
-/

namespace LiquidityArena

/-- The position and the message of a reject on its way. -/
def Tagged.awaited (event : Tagged EngineEvent) : Option (Nat × Nat) :=
  match event.item.payload with
  | .reject _ => some (event.item.clientIdx, event.request)
  | _ => none

/-- The positions and messages of the rejects on their way, and of the commands that may lead
to one. -/
def System.awaited (s : System) : List (Nat × Nat) :=
  (s.commands.filter (·.item.payload.msgType ≠ .newOrder)).map
      (fun cmd => (cmd.item.clientIdx, cmd.request)) ++
    (s.events ++ s.pending.toList).filterMap (·.awaited)

/-- The requirement on connections that come and go: the clients for whom something is on its
way keep their positions, and a new client does not take such a position. -/
def KeepsPositions (s : System) : Action → Prop
  | .remove idx => ∀ p ∈ s.awaited, p.1 < idx ∨ s.clients.length ≤ p.1 + 1
  | .accept _ => ∀ p ∈ s.awaited, p.1 ≠ s.clients.length
  | _ => True

instance (s : System) : DecidablePred (KeepsPositions s)
  | .accept _ => inferInstanceAs (Decidable (∀ p ∈ s.awaited, _))
  | .remove _ => inferInstanceAs (Decidable (∀ p ∈ s.awaited, _))
  | .message _ _ _ => isTrue trivial
  | .consume => isTrue trivial
  | .process _ => isTrue trivial
  | .publish => isTrue trivial

/-- Every reject in a send buffer answers a message that was read from that connection, and
the connections are told apart by their numbers. -/
structure System.RejectsReachSenders (s : System) : Prop where
  own : ∀ c ∈ s.clients, ∀ report ∈ c.sendBuffer, ∀ msg, report.item = .reject msg →
    ∃ m, s.received[report.request]? = some m ∧ m.conn = c.conn
  distinct : (s.clients.map (·.conn)).Nodup

/-- A reject of the engine goes to the position of a command that is not a new order. -/
theorem MatchingEngine.reject_of_processClientCommand {e e' : MatchingEngine} {ord : HashOrder}
    {cmd : ClientCommand} {event : EngineEvent} {msg : RejectMsg}
    (h : e.processClientCommand ord cmd = some (e', event)) (hmsg : event.payload = .reject msg) :
    event.clientIdx = cmd.clientIdx ∧ cmd.payload.msgType ≠ .newOrder := by
  obtain ⟨clientIdx, payload⟩ := cmd
  cases payload with
  | newOrder m =>
    obtain ⟨processed, -, hevent⟩ := Option.map_eq_some_iff.mp h
    obtain rfl := (Prod.mk.inj hevent).2
    cases hmsg
  | cancelOrder m =>
    refine ⟨?_, by simp [Request.msgType]⟩
    simp only [processClientCommand] at h
    split_ifs at h
    · obtain ⟨-, rfl⟩ := Prod.mk.inj (Option.some.inj h)
      cases hmsg
    · obtain ⟨-, rfl⟩ := Prod.mk.inj (Option.some.inj h)
      rfl
  | modifyOrder m =>
    refine ⟨?_, by simp [Request.msgType]⟩
    simp only [processClientCommand] at h
    split_ifs at h
    · obtain ⟨-, rfl⟩ := Prod.mk.inj (Option.some.inj h)
      cases hmsg
    · obtain ⟨-, rfl⟩ := Prod.mk.inj (Option.some.inj h)
      rfl

/-- The clients of two vectors with the same connections. -/
theorem ClientConn.getElem?_of_map_conn {clients clients' : List ClientConn}
    (h : clients'.map (·.conn) = clients.map (·.conn)) {k : Nat} {c : ClientConn}
    (hc : clients'[k]? = some c) : ∃ c₀, clients[k]? = some c₀ ∧ c₀.conn = c.conn := by
  have hconn := congrArg (·[k]?) h
  simp only [List.getElem?_map, hc, Option.map_some] at hconn
  exact Option.map_eq_some_iff.mp hconn.symm

private theorem Tagged.awaited_eq_some_iff {event : Tagged EngineEvent} {k r : Nat} :
    event.awaited = some (k, r) ↔ event.item.clientIdx = k ∧ event.request = r ∧
      ∃ msg, event.item.payload = .reject msg := by
  rw [awaited]
  cases event.item.payload with
  | fill msg => simp
  | bookUpdate msg => simp
  | reject msg => simp

namespace System

variable {s s' : System} {a : Action}

private theorem mem_awaited_iff {k r : Nat} : (k, r) ∈ s.awaited ↔
    (∃ cmd ∈ s.commands, cmd.item.clientIdx = k ∧ cmd.request = r ∧
      cmd.item.payload.msgType ≠ .newOrder) ∨
    ∃ event ∈ s.events ++ s.pending.toList, event.item.clientIdx = k ∧ event.request = r ∧
      ∃ msg, event.item.payload = .reject msg := by
  rw [awaited, List.mem_append, List.mem_map, List.mem_filterMap]
  refine or_congr ?_ ?_
  · simp only [List.mem_filter, decide_eq_true_eq, Prod.mk.injEq]
    constructor
    · rintro ⟨cmd, ⟨hcmd, hmay⟩, hidx, hnumber⟩
      exact ⟨cmd, hcmd, hidx, hnumber, hmay⟩
    · rintro ⟨cmd, hcmd, hidx, hnumber, hmay⟩
      exact ⟨cmd, ⟨hcmd, hmay⟩, hidx, hnumber⟩
  · simp only [Tagged.awaited_eq_some_iff]

/-- Rejects reach their senders, and what is on its way names a position where there is its
sender or nobody. -/
structure Routed (s : System) : Prop extends RejectsReachSenders s where
  origin : ∀ k r, (k, r) ∈ s.awaited →
    ∃ m, s.received[r]? = some m ∧ ∀ c, s.clients[k]? = some c → m.conn = c.conn
  numbers : ∀ c ∈ s.clients, c.conn < s.connections

private theorem routed_init (fees : FeeSchedule) : (init fees).Routed where
  own c hc := by cases hc
  distinct := List.nodup_nil
  origin k r h := by cases h
  numbers c hc := by cases hc

private theorem Routed.accept (h : s.Routed) {sock : Int} (hok : KeepsPositions s (.accept sock))
    (hs : s.step (.accept sock) = some s') : s'.Routed := by
  obtain rfl := Option.some.inj hs
  by_cases hsock : sock = invalidSock
  · simp only [TcpServer.acceptClient, if_pos hsock]
    exact ⟨⟨h.own, h.distinct⟩, h.origin, fun c hc => Nat.lt_succ_of_lt (h.numbers c hc)⟩
  simp only [TcpServer.acceptClient, if_neg hsock]
  refine ⟨⟨fun c hc => ?_, ?_⟩, fun k r hk => ?_, fun c hc => ?_⟩
  · rcases List.mem_append.mp hc with hc | hc
    · exact h.own c hc
    · obtain rfl := List.mem_singleton.mp hc
      intro report hreport
      cases hreport
  · rw [List.map_append, List.nodup_append]
    refine ⟨h.distinct, List.nodup_singleton _, fun x hx y hy hxy => ?_⟩
    obtain ⟨c, hc, rfl⟩ := List.mem_map.mp hx
    exact absurd (hxy.trans (List.mem_singleton.mp hy)) (h.numbers c hc).ne
  · obtain ⟨m, hm, hconn⟩ := h.origin k r hk
    refine ⟨m, hm, fun c hc => hconn c ?_⟩
    have hne : k ≠ s.clients.length := hok (k, r) hk
    have hlt := (List.getElem?_eq_some_iff.mp hc).1
    rw [List.length_append, List.length_singleton] at hlt
    rwa [List.getElem?_append_left (by omega)] at hc
  · rcases List.mem_append.mp hc with hc | hc
    · exact Nat.lt_succ_of_lt (h.numbers c hc)
    · obtain rfl := List.mem_singleton.mp hc
      exact Nat.lt_succ_self _

private theorem Routed.remove (h : s.Routed) {idx : Nat} (hok : KeepsPositions s (.remove idx))
    (hs : s.step (.remove idx) = some s') : s'.Routed := by
  obtain ⟨hidx, rfl⟩ := step_remove hs
  have hsub := List.eraseIdx_sublist s.clients idx
  refine ⟨⟨fun c hc => h.own c (hsub.subset hc), h.distinct.sublist (hsub.map _)⟩, fun k r hk => ?_,
    fun c hc => h.numbers c (hsub.subset hc)⟩
  obtain ⟨m, hm, hconn⟩ := h.origin k r hk
  refine ⟨m, hm, fun c hc => ?_⟩
  rw [List.getElem?_eraseIdx] at hc
  rcases hok (k, r) hk with hlt | hge
  · rw [if_pos hlt] at hc
    exact hconn c hc
  · -- the last position is empty once a connection in front of it or its own is gone
    have hlt : k < (s.clients.eraseIdx idx).length := by
      rw [← List.getElem?_eraseIdx] at hc
      exact (List.getElem?_eq_some_iff.mp hc).1
    rw [List.length_eraseIdx_of_lt hidx] at hlt
    omega

/-- The new message has the next number; the records of the others stay. -/
theorem received_record {conn idx : Nat} {type : MsgType} {payload : List UInt8} {r : Nat}
    {m : Received} (h : s.received[r]? = some m) :
    (s.record conn idx type payload).received[r]? = some m := by
  rw [record, List.getElem?_append_left (List.getElem?_eq_some_iff.mp h).1, h]

private theorem Routed.message (h : s.Routed) {idx : Nat} {type : MsgType} {payload : List UInt8}
    (hs : s.step (.message idx type payload) = some s') : s'.Routed := by
  obtain ⟨client, hclient, hcases⟩ := step_message hs
  have hlast : (s.record client.conn idx type payload).received[s.received.length]? =
      some ⟨client.conn, idx, type, payload⟩ := List.getElem?_concat_length
  have hown : ∀ c ∈ s.clients, ∀ report ∈ c.sendBuffer, ∀ msg, report.item = .reject msg →
      ∃ m, (s.record client.conn idx type payload).received[report.request]? = some m ∧
        m.conn = c.conn := fun c hc report hreport msg hmsg => by
    obtain ⟨m, hm, hconn⟩ := h.own c hc report hreport msg hmsg
    exact ⟨m, received_record hm, hconn⟩
  have horigin : ∀ k r, (k, r) ∈ s.awaited →
      ∃ m, (s.record client.conn idx type payload).received[r]? = some m ∧
        ∀ c, s.clients[k]? = some c → m.conn = c.conn := fun k r hk => by
    obtain ⟨m, hm, hconn⟩ := h.origin k r hk
    exact ⟨m, received_record hm, hconn⟩
  rcases hcases with ⟨id, reason, -, rfl⟩ | ⟨request, -, rfl⟩ | ⟨-, rfl⟩
  · have hmap := TcpServer.map_sendReject s.clients ClientConn.conn_send idx id reason
      s.received.length
    refine ⟨⟨fun c hc => ?_, hmap.symm ▸ h.distinct⟩, fun k r hk => ?_, fun c hc => ?_⟩
    · obtain ⟨i, c₀, hc₀, hconn, hreports⟩ := TcpServer.mem_sendReject hc
      intro report hreport msg hmsg
      rw [hconn]
      rcases hreports report hreport with hold | ⟨rfl, rfl⟩
      · exact hown c₀ (List.mem_of_getElem? hc₀) report hold msg hmsg
      · obtain rfl := Option.some.inj (hclient.symm.trans hc₀)
        exact ⟨_, hlast, rfl⟩
    · obtain ⟨m, hm, hconn⟩ := horigin k r hk
      refine ⟨m, hm, fun c hc => ?_⟩
      obtain ⟨c₀, hc₀, hconn₀⟩ := ClientConn.getElem?_of_map_conn hmap hc
      exact (hconn c₀ hc₀).trans hconn₀
    · obtain ⟨i, c₀, hc₀, hconn, -⟩ := TcpServer.mem_sendReject hc
      rw [hconn]
      exact h.numbers c₀ (List.mem_of_getElem? hc₀)
  · refine ⟨⟨hown, h.distinct⟩, fun k r hk => ?_, h.numbers⟩
    rcases mem_awaited_iff.mp hk with ⟨cmd, hcmd, hidx, hnumber, hmay⟩ | hevent
    · rcases mem_push hcmd with hold | rfl
      · exact horigin k r (mem_awaited_iff.mpr (Or.inl ⟨cmd, hold, hidx, hnumber, hmay⟩))
      · obtain rfl : s.received.length = r := hnumber
        obtain rfl : idx = k := hidx
        refine ⟨_, hlast, fun c hc => ?_⟩
        rw [Option.some.inj (hclient.symm.trans hc)]
    · exact horigin k r (mem_awaited_iff.mpr (Or.inr hevent))
  · exact ⟨⟨hown, h.distinct⟩, horigin, h.numbers⟩

/-- The head of the event queue is delivered to its sender, if to anybody. -/
theorem Routed.consume (h : s.Routed) (hs : s.step .consume = some s') : s'.Routed := by
  obtain ⟨event, events, hevents, rfl⟩ := step_consume hs
  have hmap := TcpServer.map_consumeEvent s.clients ClientConn.conn_send event
  have hconn : ∀ {k : Nat} {c : ClientConn}, (TcpServer.consumeEvent s.clients event)[k]? = some c →
      ∃ c₀, s.clients[k]? = some c₀ ∧ c₀.conn = c.conn := ClientConn.getElem?_of_map_conn hmap
  refine ⟨⟨fun c hc report hreport msg hmsg => ?_, hmap.symm ▸ h.distinct⟩, fun k r hk => ?_,
    fun c hc => ?_⟩
  · rw [TcpServer.consumeEvent] at hc
    split at hc
    · obtain ⟨c₀, hc₀, rfl⟩ := List.mem_map.mp hc
      rw [ClientConn.conn_send]
      refine h.own c₀ hc₀ report ?_ msg hmsg
      refine (ClientConn.mem_send hreport).resolve_right fun hnew => ?_
      rw [hnew] at hmsg
      cases hmsg
    · rename_i reject hpayload
      obtain ⟨i, c₀, hc₀, hsame, hreports⟩ := TcpServer.mem_sendReject hc
      rw [hsame]
      rcases hreports report hreport with hold | ⟨rfl, rfl⟩
      · exact h.own c₀ (List.mem_of_getElem? hc₀) report hold msg hmsg
      · obtain ⟨m, hm, hsender⟩ := h.origin event.item.clientIdx event.request
          (mem_awaited_iff.mpr (Or.inr ⟨event, by simp [hevents], rfl, rfl, reject, hpayload⟩))
        exact ⟨m, hm, hsender c₀ hc₀⟩
    · exact h.own c hc report hreport msg hmsg
  · have hold : (k, r) ∈ s.awaited := by
      rw [mem_awaited_iff] at hk ⊢
      rcases hk with hcmd | ⟨event', hevent', hrest⟩
      · exact Or.inl hcmd
      · refine Or.inr ⟨event', ?_, hrest⟩
        rw [hevents]
        exact List.mem_cons_of_mem _ hevent'
    obtain ⟨m, hm, hsender⟩ := h.origin k r hold
    refine ⟨m, hm, fun c hc => ?_⟩
    obtain ⟨c₀, hc₀, hsame⟩ := hconn hc
    exact (hsender c₀ hc₀).trans hsame
  · obtain ⟨k, hk⟩ := List.mem_iff_getElem?.mp hc
    obtain ⟨c₀, hc₀, hsame⟩ := hconn hk
    exact hsame ▸ h.numbers c₀ (List.mem_of_getElem? hc₀)

private theorem Routed.process (h : s.Routed) {ord : HashOrder}
    (hs : s.step (.process ord) = some s') :
    s'.Routed := by
  obtain ⟨hpending, cmd, commands, e', event, hcommands, hprocess, rfl⟩ := step_process hs
  refine ⟨⟨h.own, h.distinct⟩, fun k r hk => h.origin k r ?_, h.numbers⟩
  rw [mem_awaited_iff] at hk ⊢
  rcases hk with ⟨cmd', hcmd', hrest⟩ | ⟨event', hevent', hidx, hnumber, msg, hmsg⟩
  · exact Or.inl ⟨cmd', hcommands ▸ List.mem_cons_of_mem _ hcmd', hrest⟩
  rcases List.mem_append.mp hevent' with hold | hnew
  · exact Or.inr ⟨event', List.mem_append_left _ hold, hidx, hnumber, msg, hmsg⟩
  · -- the new reject stems from the command
    obtain rfl := List.mem_singleton.mp hnew
    obtain ⟨hsame, hmay⟩ := MatchingEngine.reject_of_processClientCommand hprocess hmsg
    exact Or.inl ⟨cmd, hcommands ▸ List.mem_cons_self, hsame ▸ hidx, hnumber, hmay⟩

private theorem Routed.publish (h : s.Routed) (hs : s.step .publish = some s') : s'.Routed := by
  obtain ⟨event, hpending, -, rfl⟩ := step_publish hs
  refine ⟨⟨h.own, h.distinct⟩, fun k r hk => h.origin k r ?_, h.numbers⟩
  rw [mem_awaited_iff] at hk ⊢
  rwa [hpending, Option.toList_some, ← List.append_nil (s.events ++ [event])]

private theorem Routed.step (h : s.Routed) (hok : KeepsPositions s a) (hs : s.step a = some s') :
    s'.Routed := by
  cases a with
  | accept sock => exact h.accept hok hs
  | remove idx => exact h.remove hok hs
  | message idx type payload => exact h.message hs
  | consume => exact h.consume hs
  | process ord => exact h.process hs
  | publish => exact h.publish hs

end System

/-- In every state the two threads reach, whatever the clients send and in any interleaving,
rejects are in the send buffers of the connections their messages were read from, if
connections were closed and accepted only while the positions on the way stay right. -/
theorem run_rejectsReachSenders (fees : FeeSchedule) (actions : List Action) {s : System}
    (hok : Machine.Meets System.step KeepsPositions (System.init fees) actions)
    (hrun : (System.init fees).run actions = some s) : s.RejectsReachSenders :=
  (hok.invariant System.Routed (fun h hok hs => h.step hok hs) (System.routed_init fees)
    hrun).toRejectsReachSenders

/-- A client leaves while a reject for the client in front of it is on its way. -/
theorem run_rejectsReachSenders_last_leaves :
    ∃ s, (System.init {}).run [.accept 3, .accept 4, .message 0 .cancelOrder (cancelOrderBytes 7),
        .remove 1, .process HashOrder.recent, .publish, .accept 5, .consume] = some s ∧
      s.RejectsReachSenders := by
  obtain ⟨s, hs⟩ : ∃ s, (System.init {}).run [.accept 3, .accept 4,
      .message 0 .cancelOrder (cancelOrderBytes 7), .remove 1, .process HashOrder.recent, .publish,
      .accept 5, .consume] = some s := Option.isSome_iff_exists.mp (by decide +kernel)
  exact ⟨s, hs, run_rejectsReachSenders {} _ (by decide +kernel) hs⟩

/-- The client at position 1 sends a cancel and moves to position 0 when the other one leaves;
a third client takes its position and receives the reject. -/
theorem newcomer_receives_reject :
    ∃ s, (System.init {}).run [.accept 3, .accept 4, .message 1 .cancelOrder (cancelOrderBytes 7),
        .remove 0, .accept 5, .process HashOrder.recent, .publish, .consume] = some s ∧
      ¬ s.RejectsReachSenders := by
  refine ⟨Option.get _ (by decide +kernel), (Option.some_get _).symm, fun h => ?_⟩
  obtain ⟨m, hm, hconn⟩ := h.own ⟨5, 2, [⟨.reject ⟨7, .orderNotFound⟩, 0⟩]⟩ (by decide +kernel)
    ⟨.reject ⟨7, .orderNotFound⟩, 0⟩ (by decide +kernel) ⟨7, .orderNotFound⟩ rfl
  have hsender := congrArg (Option.map (·.conn)) hm
  rw [Option.map_some, hconn] at hsender
  exact absurd hsender (by decide +kernel)

end LiquidityArena

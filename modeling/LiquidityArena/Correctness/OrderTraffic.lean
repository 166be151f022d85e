import LiquidityArena.Correctness.AgentTurns
import LiquidityArena.Correctness.SimulatedTime

/-!
# The order traffic of all agents

The frontend interferes with the human's orders between the turns, and fills come in at the
end of every turn. Still every agent hands over its orders in the order of their ids, each
one once, and no order is cancelled twice or before it was handed over.
-/

namespace LiquidityArena

variable {T : Type} [TimeField T] [LinearOrder T]

/-- Take an attempt to send a message into the metrics. -/
def QuoteLog.take {T : Type} (quotes : QuoteLog T) (c : SendCall T) : QuoteLog T :=
  if c.taken && c.agent.isSome then quotes.record c.timestamp c.message else quotes

namespace Arena

variable {T : Type}

/-- The messages sent for an agent, or tried to. -/
def traffic (calls : List (SendCall T)) (id : AgentId) : List Sent :=
  calls.filterMap fun c => if c.agent = some id then some c.message else none

/-- There is a connection, and every agent's orders are kept in a block of their own. -/
structure Orderly (ids : List AgentId) (s : Arena T) : Prop where
  connected : s.connected = true
  keys : s.agents.map Prod.fst = ids
  kept : ∀ (k : Nat) (id : AgentId) (a : Agent), s.agents[k]? = some (id, a) →
    a.Kept (k * BaseAgent.idBlock + 1) (traffic s.calls id)

variable {ids : List AgentId} {s s' : Arena T} {cfg : ArenaConfig T}

@[simp] theorem traffic_append (calls calls' : List (SendCall T)) (id : AgentId) :
    traffic (calls ++ calls') id = traffic calls id ++ traffic calls' id := List.filterMap_append

/-- Changing the agents one by one keeps them in order if it keeps every one so. -/
theorem Orderly.map (h : s.Orderly ids) (f : AgentId × Agent → AgentId × Agent)
    (hkey : ∀ entry, (f entry).1 = entry.1)
    (hkept : ∀ (k : Nat) (id : AgentId) (a : Agent), s.agents[k]? = some (id, a) →
      (f (id, a)).2.Kept (k * BaseAgent.idBlock + 1) (traffic s'.calls id))
    (hagents : s'.agents = s.agents.map f) (hconn : s'.connected = s.connected) :
    s'.Orderly ids := by
  refine ⟨hconn.trans h.connected, ?_, fun k id a ha => ?_⟩
  · rw [hagents, List.map_map, ← h.keys]
    exact List.map_congr_left fun entry _ => hkey entry
  · rw [hagents, List.getElem?_map] at ha
    obtain ⟨⟨id', a'⟩, ha', heq⟩ := Option.map_eq_some_iff.mp ha
    have hid : id' = id := by
      have hfirst := hkey (id', a')
      rw [heq] at hfirst
      exact hfirst.symm
    have hnext := hkept k id' a' ha'
    rw [heq, hid] at hnext
    exact hnext

private theorem Orderly.receive (h : s.Orderly ids) (message : TcpClient.Message) :
    (s.receive message).Orderly ids := by
  cases message with
  | bookUpdate msg => exact ⟨h.connected, h.keys, h.kept⟩
  | fill msg =>
    exact h.map (fun entry => (entry.1, entry.2.onFill msg)) (fun _ => rfl)
      (fun k id a ha => (h.kept k id a ha).onFill msg) rfl rfl

private theorem Orderly.receiveAll (h : s.Orderly ids) (messages : List TcpClient.Message) :
    (messages.foldl Arena.receive s).Orderly ids := by
  induction messages generalizing s with
  | nil => exact h
  | cons message messages ih => exact ih (h.receive message)

private theorem Orderly.mapHuman (h : s.Orderly ids) (f : HumanAgent → HumanAgent)
    (hf : ∀ {first : Int} {a : HumanAgent} {msgs : List Sent},
      (Agent.human a).Kept first msgs → (Agent.human (f a)).Kept first msgs) :
    (s.mapHuman f).Orderly ids := by
  refine h.map _ (fun entry => ?_) (fun k id a ha => ?_) rfl rfl
  · split <;> rfl
  · have hkept := h.kept k id a ha
    cases a with
    | human a => exact hf hkept
    | _ => exact hkept

private theorem Orderly.send_none (h : s.Orderly ids) (message : Sent) (socket : Bool) :
    (s.send none message socket).Orderly ids := by
  refine ⟨h.connected, h.keys, fun k id a ha => ?_⟩
  have hkept := h.kept k id a ha
  rw [Arena.send, traffic_append]
  simpa [traffic] using hkept

/-- Between the turns the human's orders are issued and withdrawn. -/
theorem Orderly.processIncoming (h : s.Orderly ids) (message : FrontendMessage) :
    (s.processIncoming message).Orderly ids := by
  cases message with
  | marketOrder side qty => exact h.mapHuman _ fun hkept => hkept.queue side .market 0 qty
  | limitOrder side offset qty =>
    refine h.mapHuman _ fun {first a msgs} hkept => ?_
    rw [HumanAgent.placeLimitOrder]
    cases a.lastBook with
    | none => exact hkept
    | some book =>
      dsimp only
      split_ifs
      · exact hkept
      · exact hkept.queue side .limit _ qty
  | cancelAll => exact h.mapHuman _ fun hkept => hkept.cancelAllQuotes
  | flashCrash => exact ⟨h.connected, h.keys, h.kept⟩
  | whaleBuy socket =>
    rw [Arena.processIncoming, if_pos h.connected]
    exact h.send_none _ _
  | volSpike => exact ⟨h.connected, h.keys, h.kept⟩
  | ignored => exact h

private theorem Orderly.midpriceMove (h : s.Orderly ids) (draws : PriceDraws) :
    (s.midpriceMove cfg draws).Orderly ids :=
  h.map (fun entry => (entry.1, entry.2.setTruePrice (s.process.step cfg.exp draws).1))
    (fun _ => rfl) (fun k id a ha => (h.kept k id a ha).setTruePrice _) rfl rfl

private theorem Orderly.metricsSample (h : s.Orderly ids) : s.metricsSample.Orderly ids := by
  unfold Arena.metricsSample
  split
  · exact h
  · exact ⟨h.connected, h.keys, h.kept⟩

/-- Messages that are submitted for an agent are tried one after the other. -/
theorem submit_spec (s : Arena T) (id : AgentId) (messages : List Sent) (socket : Nat → Bool) :
    ∃ calls, s.submit id messages socket =
        { s with calls := s.calls ++ calls, quotes := calls.foldl QuoteLog.take s.quotes } ∧
      calls.map (·.message) = messages ∧
      ∀ c ∈ calls, c.agent = some id ∧ c.timestamp = s.currentTime := by
  have hfold : ∀ (n : Nat) (s : Arena T), ∃ calls,
      (messages.zipIdx n).foldl (fun s m => s.send (some id) m.1 (socket m.2)) s =
        { s with calls := s.calls ++ calls, quotes := calls.foldl QuoteLog.take s.quotes } ∧
      calls.map (·.message) = messages ∧
      ∀ c ∈ calls, c.agent = some id ∧ c.timestamp = s.currentTime := by
    induction messages with
    | nil => exact fun n s => ⟨[], by simp, rfl, by simp⟩
    | cons message messages ih =>
      intro n s
      obtain ⟨calls, heq, hmessages, hcalls⟩ := ih (n + 1) (s.send (some id) message (socket n))
      refine ⟨⟨some id, s.currentTime, message, message.bytes.isSome && socket n⟩ :: calls,
        ?_, ?_, ?_⟩
      · rw [List.zipIdx_cons, List.foldl_cons, heq, Arena.send, List.append_assoc,
          List.singleton_append, List.foldl_cons]
        rfl
      · rw [List.map_cons, hmessages]
      · intro c hc
        rcases List.mem_cons.mp hc with rfl | hc
        · exact ⟨rfl, rfl⟩
        · exact hcalls c hc
  exact hfold 0 s

/-- Calls made for one agent are its traffic and nobody else's. -/
theorem traffic_of_agent {calls : List (SendCall T)} {id : AgentId}
    (h : ∀ c ∈ calls, c.agent = some id) (id' : AgentId) :
    traffic calls id' = if id' = id then calls.map (·.message) else [] := by
  rw [traffic]
  split_ifs with hid
  · rw [← List.filterMap_eq_map]
    exact List.filterMap_congr fun c hc => if_pos ((h c hc).trans (congrArg some hid.symm))
  · rw [List.filterMap_eq_nil_iff]
    intro c hc
    rw [if_neg]
    rw [h c hc]
    exact fun heq => hid (Option.some.inj heq).symm

private theorem setAgent_setAgent (s : Arena T) (id : AgentId) (a a' : Agent) :
    (s.setAgent id a).setAgent id a' = s.setAgent id a' := by
  rw [setAgent, setAgent, setAgent, List.map_map]
  congr 1
  refine List.map_congr_left fun entry _ => ?_
  by_cases hid : entry.1 = id <;> simp [hid]

/-- The cancels left behind are sent if there is a connection, and forgotten. -/
theorem flushCancels_spec (s : Arena T) (id : AgentId) (a : Agent) (socket : Nat → Bool) :
    s.connected = false ∧ (s.setAgent id a).flushCancels id a socket = s.setAgent id a.flushed ∨
      s.connected = true ∧ ∃ calls, (s.setAgent id a).flushCancels id a socket =
          { s.setAgent id a.flushed with
            calls := s.calls ++ calls
            quotes := calls.foldl QuoteLog.take s.quotes } ∧
        calls.map (·.message) = a.pendingCancels.map .cancel ∧
        ∀ c ∈ calls, c.agent = some id ∧ c.timestamp = s.currentTime := by
  rw [flushCancels, Agent.flushed]
  by_cases hnone : a.pendingCancels = []
  · rw [if_pos hnone, if_pos hnone, hnone]
    cases s.connected with
    | false => exact Or.inl ⟨rfl, rfl⟩
    | true =>
      refine Or.inr ⟨rfl, [], ?_, rfl, by simp⟩
      rw [List.append_nil]
      rfl
  · rw [if_neg hnone, if_neg hnone, submitCancels]
    have hconnected : (s.setAgent id a).connected = s.connected := rfl
    cases hconn : s.connected with
    | false =>
      rw [hconnected, hconn]
      exact Or.inl ⟨rfl, setAgent_setAgent s id a a.clearCancels⟩
    | true =>
      obtain ⟨calls, heq, hmessages, hcalls⟩ :=
        (s.setAgent id a).submit_spec id (a.pendingCancels.map .cancel) socket
      rw [hconnected, hconn, if_pos rfl, heq]
      refine Or.inr ⟨rfl, calls, ?_, hmessages, hcalls⟩
      rw [← setAgent_setAgent s id a a.clearCancels]
      rfl

/-- What a turn does before messages are handed out: the agent is replaced, and its messages are
sent if there is a connection. -/
theorem agentAction_cases {id : AgentId} {input : ArenaInput T} {s' : Arena T}
    (h : s.agentAction cfg id input = some s') :
    s' = s ∨ ∃ update agent agent' orders,
      s.lastBookUpdate = some update ∧ s.agents.lookup id = some agent ∧
      agent.onBookUpdate cfg update s.stepCount input.agent = some (orders, agent') ∧
      (s.connected = false ∧ s' = s.setAgent id agent'.flushed ∨
        s.connected = true ∧ ∃ calls, calls.map (·.message) = agent'.messages orders ∧
          (∀ c ∈ calls, c.agent = some id ∧ c.timestamp = s.currentTime) ∧
          s' = input.messages.foldl receive { s.setAgent id agent'.flushed with
            calls := s.calls ++ calls
            quotes := calls.foldl QuoteLog.take s.quotes }) := by
  rw [agentAction] at h
  split at h
  · exact Or.inl (Option.some.inj h).symm
  next update hupdate =>
    split at h
    · exact Or.inl (Option.some.inj h).symm
    next agent hagent =>
      obtain ⟨⟨orders, agent'⟩, hturn, rfl⟩ := Option.map_eq_some_iff.mp h
      refine Or.inr ⟨update, agent, agent', orders, hupdate, hagent, hturn, ?_⟩
      dsimp only
      rcases s.flushCancels_spec id agent' input.cancelSocket with
        ⟨hconn, hflush⟩ | ⟨hconn, cancels, hflush, hcancels, hcancelled⟩
      · refine Or.inl ⟨hconn, ?_⟩
        rw [hflush, submitOrders]
        exact if_neg (by rw [setAgent, hconn]; decide)
      · obtain ⟨calls, heq, hmessages, hcalls⟩ := submit_spec { s.setAgent id agent'.flushed with
            calls := s.calls ++ cancels
            quotes := cancels.foldl QuoteLog.take s.quotes } id (orders.map .newOrder)
          input.orderSocket
        refine Or.inr ⟨hconn, cancels ++ calls, ?_, fun c hc => ?_, ?_⟩
        · rw [List.map_append, hcancels, hmessages, Agent.messages]
        · rcases List.mem_append.mp hc with hc | hc
          · exact hcancelled c hc
          · exact hcalls c hc
        · rw [hflush, submitOrders, heq, List.foldl_append, ← List.append_assoc]
          exact if_pos hconn

/-- A registered agent is one of the registered pairs. -/
theorem mem_of_lookup {agents : List (AgentId × Agent)} {id : AgentId} {a : Agent}
    (h : agents.lookup id = some a) : (id, a) ∈ agents := by
  obtain ⟨before, after, rfl, -⟩ := List.lookup_eq_some_iff.mp h
  exact List.mem_append_right _ List.mem_cons_self

/-- An agent's turn keeps everybody's orders in order. -/
theorem Orderly.agentAction (h : s.Orderly ids) (hids : ids.Nodup) {id : AgentId}
    {input : ArenaInput T} (haction : s.agentAction cfg id input = some s') : s'.Orderly ids := by
  rcases agentAction_cases haction with
    rfl | ⟨update, agent, agent', orders, -, hagent, hturn, hcases⟩
  · exact h
  rcases hcases with ⟨hno, -⟩ | ⟨-, calls, hmessages, hcalls, rfl⟩
  · rw [h.connected] at hno
    cases hno
  refine Orderly.receiveAll ?_ input.messages
  refine h.map (fun entry => if entry.1 = id then (id, agent'.flushed) else entry)
    (fun entry => ?_) (fun k id' a ha => ?_) rfl rfl
  · split_ifs with hid
    · exact hid.symm
    · rfl
  · have hkept := h.kept k id' a ha
    rw [traffic_append, traffic_of_agent (fun c hc => (hcalls c hc).1)]
    split_ifs with hid
    · -- the agent whose turn it is
      have hnodup : (s.agents.map Prod.fst).Nodup := h.keys ▸ hids
      have hsame := List.inj_on_of_nodup_map hnodup (List.mem_of_getElem? ha)
        (mem_of_lookup hagent) hid
      obtain ⟨rfl, rfl⟩ := Prod.mk.inj hsame
      rw [hmessages]
      exact hkept.turn hturn
    · rw [List.append_nil]
      exact hkept

private theorem Orderly.processEvent (h : s.Orderly ids) (hids : ids.Nodup) {event : Event T}
    {input : ArenaInput T} (hevent : s.processEvent cfg event input = some s') :
    s'.Orderly ids := by
  rw [Arena.processEvent] at hevent
  split at hevent
  · obtain rfl := Option.some.inj hevent
    exact h.midpriceMove input.price
  · split at hevent
    · obtain rfl := Option.some.inj hevent
      exact h
    · exact h.agentAction hids hevent
  · obtain rfl := Option.some.inj hevent
    exact h.metricsSample
  · obtain rfl := Option.some.inj hevent
    exact h

end Arena

namespace ArenaConfig

variable {cfg : ArenaConfig T}

omit [LinearOrder T] in
/-- The agents have keys of their own. -/
theorem nodup_keys (schedule : ScheduleConfig T) : (schedule.agents.map Prod.fst).Nodup := by
  have hnoise : ((List.range schedule.numNoise.toNat).map AgentId.noise).Nodup :=
    List.nodup_range.map fun i j h => AgentId.noise.inj h
  rw [ScheduleConfig.agents, List.map_append, List.map_cons, List.map_map, List.cons_append,
    List.nodup_cons, List.nodup_append]
  refine ⟨?_, hnoise, ?_, ?_⟩
  · simp
  · simp
  · intro id hid other hother heq
    obtain ⟨i, -, rfl⟩ := List.mem_map.mp hid
    subst heq
    simp at hother

omit [LinearOrder T] in
private theorem orderly_arena (cfg : ArenaConfig T) :
    (cfg.arena true).Orderly (cfg.schedule.agents.map Prod.fst) := by
  refine ⟨rfl, ?_, fun k id a ha => ?_⟩
  · have hkeys : cfg.createAgents.map Prod.fst =
        (cfg.schedule.agents.zipIdx.map Prod.fst).map Prod.fst := by
      rw [createAgents, List.map_map, List.map_map]
      rfl
    rw [List.zipIdx_map_fst] at hkeys
    exact hkeys
  · obtain ⟨entry, hentry, heq⟩ := Option.map_eq_some_iff.mp ((List.getElem?_map ..).symm.trans ha)
    rw [List.getElem?_zipIdx, Nat.zero_add] at hentry
    obtain ⟨agent, -, rfl⟩ := Option.map_eq_some_iff.mp hentry
    obtain ⟨rfl, rfl⟩ := Prod.mk.inj heq
    exact Agent.Kept.create k (1 / 100) agent.1

/-- What is kept by a message of the frontend, by the clock and by an event is kept by the loop. -/
theorem run_invariant (P : Arena T → Prop) {connected : Bool} (hstart : P (cfg.arena connected))
    (hincoming : ∀ s message, P s → P (s.processIncoming message))
    (htime : ∀ s t, P s → P { s with currentTime := t })
    (hevent : ∀ s event input s', P s → s.processEvent cfg event input = some s' → P s')
    {draws : Nat → AgentId → LatencyDraw T} {actions : List (Event T × ArenaInput T)}
    {st : EventLoop.State (Option (Arena T)) (Event T)}
    (hrun : Machine.run cfg.iterate (cfg.start connected draws) actions = some st)
    {s : Arena T} (hinner : st.inner = some s) : P s := by
  have hincomings : ∀ (messages : List FrontendMessage) (s : Arena T), P s →
      P (messages.foldl Arena.processIncoming s) := by
    intro messages
    induction messages with
    | nil => exact fun _ h => h
    | cons message messages ih => exact fun s h => ih _ (hincoming s message h)
  have hloop : ∀ s, st.inner = some s → P s := by
    refine EventLoop.inner_invariant (fun inner => ∀ s, inner = some s → P s)
      (fun inner event input h s' hs' => ?_) (fun s hs => ?_) _ hrun
    · cases inner with
      | none => cases hs'
      | some s => exact hevent _ _ _ _ (htime _ _ (hincomings input.frontend s (h s rfl))) hs'
    · obtain rfl := Option.some.inj hs
      exact hstart
  exact hloop s hinner

/-- Along every run with a connection each agent's orders are kept in its block. -/
theorem run_orderly {draws : Nat → AgentId → LatencyDraw T} {actions : List (Event T × ArenaInput T)}
    {st : EventLoop.State (Option (Arena T)) (Event T)}
    (hrun : Machine.run cfg.iterate (cfg.start true draws) actions = some st) {s : Arena T}
    (hinner : st.inner = some s) : s.Orderly (cfg.schedule.agents.map Prod.fst) :=
  run_invariant (Arena.Orderly (cfg.schedule.agents.map Prod.fst)) cfg.orderly_arena
    (fun _ message h => h.processIncoming message)
    (fun _ _ h => ⟨h.connected, h.keys, h.kept⟩)
    (fun _ _ _ _ h hevent => h.processEvent (nodup_keys cfg.schedule) hevent) hrun hinner

end ArenaConfig

/-- In every run of the simulator that is connected to the engine, each agent hands over its orders
one by one in the order of their ids, with none left out; it has counted them all, with those the
player has queued; no order is cancelled twice, or before it was handed over; and none that was
cancelled is active. -/
theorem order_traffic_in_order (cfg : ArenaConfig T)
    (draws : Nat → AgentId → LatencyDraw T) (actions : List (Event T × ArenaInput T))
    (st : EventLoop.State (Option (Arena T)) (Event T))
    (hrun : Machine.run cfg.iterate (cfg.start true draws) actions = some st)
    (s : Arena T) (hinner : st.inner = some s) (k : Nat) (id : AgentId) (a : Agent)
    (hagent : s.agents[k]? = some (id, a)) :
    let log := (Arena.traffic s.calls id).map Sent.entry
    Tickets.handed log ++ a.pendingOrders.map (·.orderId) =
        Tickets.numbers (k * 1000000 + 1) (k * 1000000 + 1 + a.base.stats.totalOrdersSent) ∧
      (Tickets.cancelled log).Nodup ∧ Tickets.Ordered log ∧
      ∀ o ∈ a.base.activeOrders, o.orderId ∉ Tickets.cancelled log := by
  intro log
  have horderly := ArenaConfig.run_orderly hrun hinner
  obtain ⟨hvalid, hfirst, -⟩ := horderly.kept k id a hagent
  have hnext : a.base.nextOrderIdValue = k * 1000000 + 1 + a.base.stats.totalOrdersSent := by
    rw [BaseAgent.firstId, BaseAgent.idBlock] at hfirst
    omega
  have honce := hvalid.once
  rw [List.append_assoc] at honce
  obtain ⟨hnodup, -, hapart⟩ := List.nodup_append.mp honce
  refine ⟨hvalid.numbered.trans (congrArg _ hnext), hnodup, hvalid.ordered,
    fun o ho hcancelled => ?_⟩
  exact hapart o.orderId hcancelled o.orderId
    (List.mem_append_right _ (List.mem_map_of_mem ho)) rfl

/-- A simulation of one step, with one level of quotes. -/
def oneArena : ArenaConfig ℚ where
  schedule := oneStep
  process := .ou {}
  exp := fun x => 1 + x
  marketMaker :=
    { gamma := 1 / 100, kappa := 3 / 2, maxInventory := 100, numLevels := 1, levelSpacing := 2,
      baseQuantity := 50, sigmaWindow := 100, totalSteps := 10000, log := fun x => x - 1,
      gamma_pos := by norm_num, kappa_pos := by norm_num, totalSteps_pos := by norm_num }

/-- A pass of the loop with messages of the frontend and of the engine, in which the socket takes
everything. -/
def oneInput (frontend : List FrontendMessage) (messages : List TcpClient.Message) :
    ArenaInput ℚ where
  frontend := frontend
  price := ⟨0, 1, .calm, true⟩
  extra := []
  agent := ⟨⟨1, .bid, 10, 1, 1⟩, ⟨1, 20⟩, ⟨1, 1, 1, 10⟩⟩
  cancelSocket := fun _ => true
  orderSocket := fun _ => true
  messages := messages

/-- The player's first order, and a second one that waits for a turn. -/
theorem order_traffic_in_order_player : ∃ st s a,
    Machine.run oneArena.iterate (oneArena.start true fun _ _ => ⟨0, 1⟩)
        [(⟨0, .midpriceMove, none⟩, oneInput [.marketOrder .bid 5] []),
          (⟨0, .agentAction, some .human⟩, oneInput [] []),
          (⟨1 / 20000, .agentAction, some .latArb⟩, oneInput [.cancelAll, .marketOrder .ask 7] [])] =
        some st ∧ st.inner = some s ∧ s.agents[5]? = some (.human, a) ∧
      a.pendingOrders.map (·.orderId) = [5000002] ∧
      Tickets.handed ((Arena.traffic s.calls .human).map Sent.entry) ++ [5000002] =
        Tickets.numbers 5000001 5000003 := by
  have hruns : (((Machine.run oneArena.iterate (oneArena.start true fun _ _ => ⟨0, 1⟩)
      [(⟨0, .midpriceMove, none⟩, oneInput [.marketOrder .bid 5] []),
        (⟨0, .agentAction, some .human⟩, oneInput [] []),
        (⟨1 / 20000, .agentAction, some .latArb⟩,
          oneInput [.cancelAll, .marketOrder .ask 7] [])]).bind (·.inner)).bind (·.agents[5]?)).map
        (fun entry => (entry.1, entry.2.pendingOrders.map (·.orderId),
          entry.2.base.stats.totalOrdersSent)) = some (.human, [5000002], 2) := by
    decide +kernel
  obtain ⟨⟨id, a⟩, hagent, heq⟩ := Option.map_eq_some_iff.mp hruns
  obtain ⟨s, hinner, hagent⟩ := Option.bind_eq_some_iff.mp hagent
  obtain ⟨st, hrun, hinner⟩ := Option.bind_eq_some_iff.mp hinner
  obtain ⟨rfl, hpending, hsent⟩ : id = .human ∧ a.pendingOrders.map (·.orderId) = [5000002] ∧
      a.base.stats.totalOrdersSent = 2 := by simpa using heq
  have horder := (order_traffic_in_order oneArena (fun _ _ => ⟨0, 1⟩) _ st hrun s hinner 5 .human a
    hagent).1
  rw [hpending, hsent] at horder
  exact ⟨st, s, a, hrun, hinner, hagent, hpending, horder⟩

end LiquidityArena

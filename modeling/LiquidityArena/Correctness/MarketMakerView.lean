import LiquidityArena.Correctness.OrderTraffic
import LiquidityArena.Correctness.QuoteLadder

/-!
# The market maker among the other agents

What happens to the market maker in the simulator with all its agents is what happens to it
in the one that knows only its turns and those of others. So what holds of its quotes there
holds here, whatever the player, the scenarios and the sockets do.
-/

namespace LiquidityArena

variable {T : Type} [TimeField T] [LinearOrder T]

/-- The simulator with all agents, as the market maker sees it. -/
structure Arena.Viewed (s : Arena T) (t : Simulator) : Prop where
  mm : s.agents.head? = some (.mm, .marketMaker t.mm)
  connected : s.connected = t.connected
  book : s.lastBookUpdate = t.lastBookUpdate
  sent : t.sent = Arena.traffic s.calls .mm

namespace Arena

variable {T : Type} {cfg : ArenaConfig T} {s s' : Arena T} {t : Simulator}

/-- What does not concern the market maker does not change its view. -/
theorem Viewed.congr (h : s.Viewed t) (hagents : s'.agents.head? = s.agents.head?)
    (hconn : s'.connected = s.connected) (hbook : s'.lastBookUpdate = s.lastBookUpdate)
    (hcalls : traffic s'.calls .mm = traffic s.calls .mm) : s'.Viewed t :=
  ⟨hagents.trans h.mm, hconn.trans h.connected, hbook.trans h.book, h.sent.trans hcalls.symm⟩

private theorem Viewed.receive (h : s.Viewed t) (message : TcpClient.Message) :
    (s.receive message).Viewed (t.receive message) := by
  cases message with
  | bookUpdate msg => exact ⟨h.mm, h.connected, rfl, h.sent⟩
  | fill msg =>
    refine ⟨?_, h.connected, h.book, h.sent⟩
    rw [Arena.receive, List.head?_map, h.mm]
    rfl

private theorem Viewed.receiveAll (h : s.Viewed t) (messages : List TcpClient.Message) :
    (messages.foldl Arena.receive s).Viewed (messages.foldl Simulator.receive t) := by
  induction messages generalizing s t with
  | nil => exact h
  | cons message messages ih => exact ih (h.receive message)

private theorem Viewed.processIncoming (h : s.Viewed t) (message : FrontendMessage) :
    (s.processIncoming message).Viewed t := by
  have hhuman : ∀ f, (s.mapHuman f).Viewed t := by
    intro f
    refine h.congr ?_ rfl rfl rfl
    rw [mapHuman, List.head?_map, h.mm]
    rfl
  cases message with
  | marketOrder side qty => exact hhuman _
  | limitOrder side offset qty => exact hhuman _
  | cancelAll => exact hhuman _
  | flashCrash => exact h.congr rfl rfl rfl rfl
  | whaleBuy socket =>
    rw [Arena.processIncoming]
    split_ifs
    · refine h.congr rfl rfl rfl ?_
      rw [send, traffic_append]
      simp [traffic]
    · exact h
  | volSpike => exact h.congr rfl rfl rfl rfl
  | ignored => exact h

private theorem Viewed.processIncomings (h : s.Viewed t) (messages : List FrontendMessage) :
    (messages.foldl Arena.processIncoming s).Viewed t := by
  induction messages generalizing s with
  | nil => exact h
  | cons message messages ih => exact ih (h.processIncoming message)

private theorem Viewed.midpriceMove (h : s.Viewed t) (draws : PriceDraws) :
    (s.midpriceMove cfg draws).Viewed t := by
  refine h.congr ?_ rfl rfl rfl
  rw [Arena.midpriceMove, List.head?_map, h.mm]
  rfl

private theorem Viewed.metricsSample (h : s.Viewed t) : s.metricsSample.Viewed t := by
  unfold Arena.metricsSample
  split
  · exact h
  · exact h.congr rfl rfl rfl rfl

private theorem Viewed.lookup (h : s.Viewed t) :
    s.agents.lookup .mm = some (.marketMaker t.mm) := by
  have hmm := h.mm
  cases hagents : s.agents with
  | nil =>
    rw [hagents] at hmm
    cases hmm
  | cons entry rest =>
    rw [hagents] at hmm
    obtain rfl := Option.some.inj hmm
    exact List.lookup_cons_self

/-- The cancels that the market maker has left behind are taken from it. -/
theorem flushCancels_view (t : Simulator) :
    Agent.marketMaker t.flushCancels.mm = (Agent.marketMaker t.mm).flushed ∧
      t.flushCancels.sent = (if t.connected then
        t.sent ++ (Agent.marketMaker t.mm).pendingCancels.map .cancel else t.sent) ∧
      t.flushCancels.connected = t.connected ∧
      t.flushCancels.lastBookUpdate = t.lastBookUpdate := by
  cases hpending : t.mm.pendingCancels with
  | none =>
    have hnone : (Agent.marketMaker t.mm).pendingCancels = [] := by
      rw [Agent.pendingCancels, hpending, Option.getD_none]
    rw [Simulator.flushCancels_idle (Or.inl hpending), Agent.flushed, if_pos hnone, hnone]
    exact ⟨rfl, by simp, rfl, rfl⟩
  | some ids =>
    have hids : (Agent.marketMaker t.mm).pendingCancels = ids := by
      rw [Agent.pendingCancels, hpending, Option.getD_some]
    rw [Simulator.flushCancels_some hpending, Agent.flushed, hids]
    refine ⟨?_, rfl, rfl, rfl⟩
    by_cases hnone : ids = []
    · rw [if_pos hnone, ← hnone, ← hpending]
    · rw [if_neg hnone]
      rfl

/-- The market maker's turn. -/
theorem Viewed.marketMaker (h : s.Viewed t) {update : TcpClient.BookUpdateMsg}
    (hbook : s.lastBookUpdate = some update) {messages : List TcpClient.Message}
    {mm : MarketMaker} {orders : List AgentOrder}
    (hturn : t.mm.onBookUpdate cfg.marketMaker update s.stepCount = (orders, mm))
    (hcases : s.connected = false ∧ s' = s.setAgent .mm (Agent.marketMaker mm).flushed ∨
      s.connected = true ∧ ∃ calls,
        calls.map (·.message) = (Agent.marketMaker mm).messages orders ∧
        (∀ c ∈ calls, c.agent = some .mm ∧ c.timestamp = s.currentTime) ∧
        s' = messages.foldl Arena.receive { s.setAgent .mm (Agent.marketMaker mm).flushed with
          calls := s.calls ++ calls
          quotes := calls.foldl QuoteLog.take s.quotes }) :
    s'.Viewed (t.processEvent cfg.marketMaker (.marketMaker s.stepCount messages)) := by
  obtain ⟨hmm, hsent, hconn', hbook'⟩ := flushCancels_view { t with mm := mm }
  have hhead : (s.setAgent .mm (Agent.marketMaker mm).flushed).agents.head? =
      some (.mm, .marketMaker ({ t with mm := mm } : Simulator).flushCancels.mm) := by
    rw [setAgent, List.head?_map, h.mm, Option.map_some, if_pos rfl, hmm]
  have hview : t.lastBookUpdate = some update := h.book.symm.trans hbook
  have hevent : t.processEvent cfg.marketMaker (.marketMaker s.stepCount messages) =
      (({ t with mm := mm } : Simulator).flushCancels).submitOrders orders messages := by
    simp only [Simulator.processEvent, hview, hturn]
  rw [hevent]
  generalize ({ t with mm := mm } : Simulator).flushCancels = t' at *
  have hconnected : s.connected = t'.connected := h.connected.trans hconn'.symm
  have hviewed : s.lastBookUpdate = t'.lastBookUpdate := h.book.trans hbook'.symm
  dsimp only at hsent
  rw [← h.connected] at hsent
  rcases hcases with ⟨hconn, rfl⟩ | ⟨hconn, calls, hmessages, hcalls, rfl⟩
  · rw [hconn] at hsent hconnected
    rw [Simulator.submitOrders, if_neg (by rw [← hconnected]; decide)]
    refine ⟨hhead, hconn.trans hconnected, hviewed, ?_⟩
    exact hsent.trans h.sent
  · rw [hconn] at hsent hconnected
    rw [Simulator.submitOrders, if_pos hconnected.symm]
    refine Viewed.receiveAll ?_ messages
    refine ⟨hhead, hconn.trans hconnected, hviewed, ?_⟩
    dsimp only
    rw [hsent, if_pos rfl, traffic_append, traffic_of_agent (fun c hc => (hcalls c hc).1),
      if_pos rfl, hmessages, Agent.messages, ← List.append_assoc, h.sent]

/-- An agent's turn is one of the market maker or of another agent, or nothing happens in it. -/
theorem Viewed.agentAction (h : s.Viewed t) {id : AgentId} {input : ArenaInput T}
    (haction : s.agentAction cfg id input = some s') :
    s'.Viewed t ∨ ∃ turn, s'.Viewed (t.processEvent cfg.marketMaker turn) := by
  rcases agentAction_cases haction with
    rfl | ⟨update, agent, agent', orders, hbook, hagent, hturn, hcases⟩
  · exact Or.inl h
  by_cases hid : id = .mm
  · subst hid
    obtain rfl := Option.some.inj (h.lookup.symm.trans hagent)
    obtain ⟨rfl, rfl⟩ := Prod.mk.inj (Option.some.inj hturn)
    exact Or.inr ⟨.marketMaker s.stepCount input.messages, h.marketMaker hbook rfl hcases⟩
  · have hview : (s.setAgent id agent'.flushed).Viewed t := by
      refine h.congr ?_ rfl rfl rfl
      rw [setAgent, List.head?_map, h.mm, Option.map_some, if_neg (Ne.symm hid)]
    rcases hcases with ⟨-, rfl⟩ | ⟨hconn, calls, -, hcalls, rfl⟩
    · exact Or.inl hview
    · refine Or.inr ⟨.other input.messages, ?_⟩
      rw [Simulator.processEvent, ← h.book, hbook]
      dsimp only
      rw [← h.connected, hconn, if_pos rfl]
      refine Viewed.receiveAll ?_ input.messages
      refine hview.congr rfl rfl rfl ?_
      rw [traffic_append, traffic_of_agent (fun c hc => (hcalls c hc).1), if_neg (Ne.symm hid),
        List.append_nil]
      rfl

private theorem Viewed.processEvent (h : s.Viewed t) {event : Event T} {input : ArenaInput T}
    (hevent : s.processEvent cfg event input = some s') :
    s'.Viewed t ∨ ∃ turn, s'.Viewed (t.processEvent cfg.marketMaker turn) := by
  rw [Arena.processEvent] at hevent
  split at hevent
  · obtain rfl := Option.some.inj hevent
    exact Or.inl (h.midpriceMove input.price)
  · split at hevent
    · obtain rfl := Option.some.inj hevent
      exact Or.inl h
    · exact h.agentAction hevent
  · obtain rfl := Option.some.inj hevent
    exact Or.inl h.metricsSample
  · obtain rfl := Option.some.inj hevent
    exact Or.inl h

end Arena

namespace ArenaConfig

variable {cfg : ArenaConfig T}

/-- What the market maker sees of the simulator before the main loop. -/
def simulator (cfg : ArenaConfig T) (connected : Bool) : Simulator where
  mm := { base := (BaseAgent.create 0 (1 / 100)).1 }
  connected := connected
  lastBookUpdate := (cfg.arena connected).lastBookUpdate

omit [LinearOrder T] in
private theorem viewed_arena (cfg : ArenaConfig T) (connected : Bool) :
    (cfg.arena connected).Viewed (cfg.simulator connected) := ⟨rfl, rfl, rfl, rfl⟩

omit [LinearOrder T] in
private theorem tidy_simulator (cfg : ArenaConfig T) (connected : Bool) :
    (cfg.simulator connected).Tidy cfg.marketMaker :=
  ⟨Or.inl rfl, fun _ => rfl, by simp [simulator], by simp [simulator],
    by simp [simulator, BaseAgent.create], by simp [Simulator.Accounted, simulator]⟩

/-- A pass of the main loop is at most one turn to the market maker. -/
theorem handle_view {s s' : Arena T} {t : Simulator} (h : s.Viewed t) {event : Event T}
    {input : ArenaInput T} (hpass : (cfg.handle (some s) event input).1 = some s') :
    s'.Viewed t ∨ ∃ turn, s'.Viewed (t.processEvent cfg.marketMaker turn) := by
  have hincoming := h.processIncomings input.frontend
  have hclock : Arena.Viewed { input.frontend.foldl Arena.processIncoming s with
      currentTime := event.timestamp } t := hincoming.congr rfl rfl rfl rfl
  exact hclock.processEvent hpass

end ArenaConfig

/-- In every run of the simulator with all its agents, the market maker and what is sent for it
are those of the simulator that knows nothing but turns. As in every configuration, the parameters
of the market maker and of the latency arbitrageur are positive. -/
theorem market_maker_among_agents (cfg : ArenaConfig T) (connected : Bool)
    (draws : Nat → AgentId → LatencyDraw T)
    (actions : List (Event T × ArenaInput T)) (st : EventLoop.State (Option (Arena T)) (Event T))
    (hrun : Machine.run cfg.iterate (cfg.start connected draws) actions = some st)
    (s : Arena T) (hinner : st.inner = some s) :
    ∃ turns, s.Viewed (Simulator.run cfg.marketMaker (cfg.simulator connected) turns) := by
  refine ArenaConfig.run_invariant
    (fun s => ∃ turns, s.Viewed (Simulator.run cfg.marketMaker (cfg.simulator connected) turns))
    ⟨[], cfg.viewed_arena connected⟩ ?_ ?_ ?_ hrun hinner
  · rintro s message ⟨turns, h⟩
    exact ⟨turns, h.processIncoming message⟩
  · rintro s time ⟨turns, h⟩
    exact ⟨turns, h.congr rfl rfl rfl rfl⟩
  · rintro s event input s' ⟨turns, h⟩ hevent
    rcases h.processEvent hevent with h' | ⟨turn, h'⟩
    · exact ⟨turns, h'⟩
    · refine ⟨turns ++ [turn], ?_⟩
      rw [Simulator.run, List.foldl_append]
      exact h'

/-- The events before the market maker's first turn. -/
def beforeQuotes : List (Event ℚ × ArenaInput ℚ) :=
  [(⟨0, .midpriceMove, none⟩, oneInput [.marketOrder .bid 5] []),
    (⟨0, .agentAction, some .human⟩, oneInput [] [.bookUpdate ⟨9990, 10010, 0, 0, [], [], [], []⟩]),
    (⟨1 / 20000, .agentAction, some .latArb⟩, oneInput [.volSpike] [])]

/-- A run in which the player, the scenarios and the engine interfere. -/
theorem market_maker_among_agents_first : ∃ st s turns,
    Machine.run oneArena.iterate (oneArena.start true fun _ _ => ⟨0, 1⟩) beforeQuotes = some st ∧
      st.inner = some s ∧ s.lastBookUpdate = some ⟨9990, 10010, 0, 0, [], [], [], []⟩ ∧
      s.Viewed (Simulator.run oneArena.marketMaker (oneArena.simulator true) turns) := by
  have hruns : ((Machine.run oneArena.iterate (oneArena.start true fun _ _ => ⟨0, 1⟩)
      beforeQuotes).bind (·.inner)).map (·.lastBookUpdate) =
        some (some ⟨9990, 10010, 0, 0, [], [], [], []⟩) := by
    decide +kernel
  obtain ⟨s, hs, hbook⟩ := Option.map_eq_some_iff.mp hruns
  obtain ⟨st, hrun, hinner⟩ := Option.bind_eq_some_iff.mp hs
  obtain ⟨turns, hview⟩ :=
    market_maker_among_agents oneArena true (fun _ _ => ⟨0, 1⟩) beforeQuotes st hrun s hinner
  exact ⟨st, s, turns, hrun, hinner, hbook, hview⟩

/-- In every pass of the main loop a market maker with widening levels sends cancels of all its
active orders, then quotes for the inventory with which the pass began: limit orders on the sides
that its inventory allows, none of which trades with another. Or it sends cancels only, or
nothing. -/
theorem market_maker_requotes (cfg : ArenaConfig T)
    (hcfg : cfg.marketMaker.Widening) (connected : Bool) (draws : Nat → AgentId → LatencyDraw T)
    (actions : List (Event T × ArenaInput T)) (st : EventLoop.State (Option (Arena T)) (Event T))
    (hrun : Machine.run cfg.iterate (cfg.start connected draws) actions = some st)
    (a : Event T × ArenaInput T) (st' : EventLoop.State (Option (Arena T)) (Event T))
    (hstep : cfg.iterate st a = some st') (s' : Arena T) (hinner' : st'.inner = some s') :
    ∃ s mm ids orders, st.inner = some s ∧ s.agents.head? = some (.mm, .marketMaker mm) ∧
      Arena.traffic s'.calls .mm =
        Arena.traffic s.calls .mm ++ ids.map .cancel ++ orders.map .newOrder ∧
      (orders ≠ [] → ids = mm.base.activeOrders.map (·.orderId)) ∧
      MarketMaker.Quoted cfg.marketMaker mm.base.stats.inventory orders := by
  obtain ⟨-, -, rfl⟩ := EventLoop.step_cases hstep
  cases hinner : st.inner with
  | none =>
    rw [hinner] at hinner'
    cases hinner'
  | some s =>
    rw [hinner] at hinner'
    obtain ⟨turns, h⟩ := market_maker_among_agents cfg connected draws actions st hrun s hinner
    set t := Simulator.run cfg.marketMaker (cfg.simulator connected) turns
    have htidy : t.Tidy cfg.marketMaker := (cfg.tidy_simulator connected).run turns
    refine ⟨s, t.mm, ?_⟩
    rcases ArenaConfig.handle_view h hinner' with h' | ⟨turn, h'⟩
    · refine ⟨[], [], rfl, h.mm, ?_, fun hne => absurd rfl hne,
        ⟨by simp, by simp, by simp, by simp, by simp⟩⟩
      rw [← h'.sent, ← h.sent]
      simp
    · obtain ⟨ids, orders, hsent, hfirst⟩ := htidy.cancelsFirst turn
      obtain ⟨msgs, hmsgs, hquoted⟩ := Simulator.processEvent_quoted hcfg t turn
      rw [hsent, List.append_assoc] at hmsgs
      rw [← List.append_cancel_left hmsgs, ordersOf_append, ordersOf_cancels, ordersOf_newOrders,
        List.nil_append] at hquoted
      refine ⟨ids, orders, rfl, h.mm, ?_, hfirst, hquoted⟩
      rw [← h'.sent, ← h.sent]
      exact hsent

/-- The first quotes, around the mid of the book that came in before. -/
theorem market_maker_requotes_first : ∃ st st' s' s mm, ∃ (ids : List Int) (orders : List AgentOrder),
    Machine.run oneArena.iterate (oneArena.start true fun _ _ => ⟨0, 1⟩) beforeQuotes = some st ∧
      oneArena.iterate st (⟨1 / 5000, .agentAction, some .mm⟩, oneInput [] []) = some st' ∧
      st'.inner = some s' ∧ st.inner = some s ∧ s.agents.head? = some (.mm, .marketMaker mm) ∧
      Arena.traffic s'.calls .mm =
        [.newOrder ⟨1, .bid, .limit, 9999, 50⟩, .newOrder ⟨2, .ask, .limit, 10001, 50⟩] ∧
      Arena.traffic s'.calls .mm =
        Arena.traffic s.calls .mm ++ ids.map .cancel ++ orders.map .newOrder ∧
      MarketMaker.Quoted oneArena.marketMaker mm.base.stats.inventory orders := by
  have hruns : (((Machine.run oneArena.iterate (oneArena.start true fun _ _ => ⟨0, 1⟩)
      beforeQuotes).bind (oneArena.iterate ·
        (⟨1 / 5000, .agentAction, some .mm⟩, oneInput [] []))).bind (·.inner)).map
          (fun s => Arena.traffic s.calls .mm) =
      some [.newOrder ⟨1, .bid, .limit, 9999, 50⟩, .newOrder ⟨2, .ask, .limit, 10001, 50⟩] := by
    decide +kernel
  obtain ⟨s', hs', htraffic⟩ := Option.map_eq_some_iff.mp hruns
  obtain ⟨st', hst', hinner'⟩ := Option.bind_eq_some_iff.mp hs'
  obtain ⟨st, hrun, hstep⟩ := Option.bind_eq_some_iff.mp hst'
  obtain ⟨s, mm, ids, orders, hinner, hmm, hsent, -, hquoted⟩ := market_maker_requotes oneArena
    (by decide) true (fun _ _ => ⟨0, 1⟩) beforeQuotes st hrun _ st' hstep s' hinner'
  exact ⟨st, st', s', s, mm, ids, orders, hrun, hstep, hinner', hinner, hmm, htraffic, hsent,
    hquoted⟩

end LiquidityArena

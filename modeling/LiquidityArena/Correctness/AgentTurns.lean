import LiquidityArena.Correctness.QuoteTurnover
import LiquidityArena.Lib.Tickets
import LiquidityArena.Simulation.Arena

/-!
# The agents' turns

Order ids are tickets: an agent takes the next number, hands the order to the simulator in
a turn, and may have it cancelled in a later one. Every kind of agent keeps to that.
-/

namespace LiquidityArena

/-- What a message is in the record of an agent's orders. -/
def Sent.entry : Sent → Tickets.Entry
  | .newOrder o => .hand o.orderId
  | .cancel id => .cancel id

/-- The first id an agent took, by the number of orders in its statistics. -/
def BaseAgent.firstId (a : BaseAgent) : Int := a.nextOrderIdValue - a.stats.totalOrdersSent

namespace Agent

/-- The orders that wait for the agent's turn. -/
def pendingOrders : Agent → List AgentOrder
  | .human a => a.pendingOrders
  | _ => []

/-- An agent's orders as tickets, given the messages sent for it. -/
def counter (a : Agent) (traffic : List Sent) : Tickets.Counter where
  next := a.base.nextOrderIdValue
  queued := a.pendingOrders.map (·.orderId)
  active := a.base.activeOrders.map (·.orderId)
  withdrawn := a.pendingCancels
  log := traffic.map Sent.entry

/-- Between two turns only the human has cancels pending. -/
def Settled : Agent → Prop
  | .marketMaker a => a.pendingCancels.getD [] = []
  | _ => True

/-- The agent once its cancels have been taken from it. -/
def flushed (a : Agent) : Agent := if a.pendingCancels = [] then a else a.clearCancels

variable {a a' : Agent} {first : Int} {traffic : List Sent}

private theorem base_flushed (a : Agent) : a.flushed.base = a.base := by
  unfold flushed
  split_ifs
  · rfl
  · cases a <;> rfl

private theorem pendingOrders_flushed (a : Agent) : a.flushed.pendingOrders = a.pendingOrders := by
  unfold flushed
  split_ifs
  · rfl
  · cases a <;> rfl

private theorem pendingCancels_flushed (a : Agent) : a.flushed.pendingCancels = [] := by
  unfold flushed
  split_ifs with hnone
  · exact hnone
  · cases a <;> rfl

private theorem settled_flushed (a : Agent) : a.flushed.Settled := by
  have hnone := pendingCancels_flushed a
  cases hflushed : a.flushed with
  | marketMaker m =>
    rw [hflushed] at hnone
    exact hnone
  | _ => trivial

private theorem counter_setTruePrice (price : Int) (a : Agent) (traffic : List Sent) :
    (a.setTruePrice price).counter traffic = a.counter traffic := by
  cases a <;> rfl

private theorem base_onFill (fill : TcpClient.FillMsg) (a : Agent) :
    (a.onFill fill).base = a.base.onFill fill := by
  cases a <;> rfl

private theorem pendingOrders_onFill (fill : TcpClient.FillMsg) (a : Agent) :
    (a.onFill fill).pendingOrders = a.pendingOrders := by
  cases a <;> rfl

private theorem pendingCancels_onFill (fill : TcpClient.FillMsg) (a : Agent) :
    (a.onFill fill).pendingCancels = a.pendingCancels := by
  cases a <;> rfl

/-- A fill retires tickets. -/
theorem counter_onFill (fill : TcpClient.FillMsg) (a : Agent) (traffic : List Sent) :
    (a.onFill fill).counter traffic = { a.counter traffic with
      active := (a.base.onFill fill).activeOrders.map (·.orderId) } := by
  rw [counter, base_onFill, pendingOrders_onFill, pendingCancels_onFill,
    (Simulator.onFill_shrinks a.base fill).2]
  rfl

end Agent

namespace BaseAgent

open Tickets

variable {first : Int} {withdrawn : List Int} {log : List Entry}

private theorem activeOrders_onFill (a : BaseAgent) (fill : TcpClient.FillMsg) :
    (a.onFill fill).activeOrders.Sublist a.activeOrders := by
  rw [onFill]
  cases a.matching fill with
  | none => exact List.Sublist.refl _
  | some order =>
    dsimp only
    split_ifs
    · exact List.filter_sublist
    · exact List.Sublist.refl _

private theorem firstId_onFill (a : BaseAgent) (fill : TcpClient.FillMsg) :
    (a.onFill fill).firstId = a.firstId := by
  rw [onFill]
  cases a.matching fill <;> rfl

/-- Every id taken is counted. -/
theorem firstId_nextOrderId (a : BaseAgent) : a.nextOrderId.2.firstId = a.firstId := by
  rw [firstId, nextOrderId, firstId]
  push_cast
  ring

/-- An order with the next id that is tracked and handed over. -/
theorem valid_submit {a : BaseAgent}
    (h : Valid first ⟨a.nextOrderIdValue, [], a.activeOrders.map (·.orderId), withdrawn, log⟩)
    (order : AgentOrder) (hid : order.orderId = a.nextOrderIdValue) :
    Valid first ⟨a.nextOrderIdValue + 1, [],
      (a.nextOrderId.2.trackOrder order).activeOrders.map (·.orderId), withdrawn,
      log ++ [.hand order.orderId]⟩ := by
  have hnew : ∀ o ∈ a.nextOrderId.2.activeOrders, o.orderId ≠ order.orderId := by
    intro o ho
    have hhanded := h.known o.orderId (List.mem_append_right _ (List.mem_map_of_mem ho))
    rw [hid]
    exact (h.handed_lt hhanded).2.ne
  rw [trackOrder_new _ _ hnew, List.map_append, List.map_singleton, hid]
  exact h.issue.hand

/-- A turn in which at most one order is sent. -/
def Submits (a : BaseAgent) (orders : List AgentOrder) (a' : BaseAgent) : Prop :=
  orders = [] ∧ a' = a ∨
    ∃ side type price quantity, a.submit side type price quantity = (orders, a')

private theorem Submits.valid {a a' : BaseAgent} {orders : List AgentOrder}
    (h : a.Submits orders a')
    (hvalid : Valid first
      ⟨a.nextOrderIdValue, [], a.activeOrders.map (·.orderId), withdrawn, log⟩) :
    Valid first ⟨a'.nextOrderIdValue, [], a'.activeOrders.map (·.orderId), withdrawn,
      log ++ (orders.map (·.orderId)).map .hand⟩ := by
  rcases h with ⟨rfl, rfl⟩ | ⟨side, type, price, quantity, hsubmit⟩
  · rw [List.map_nil, List.map_nil, List.append_nil]
    exact hvalid
  · obtain ⟨rfl, rfl⟩ := Prod.mk.inj hsubmit
    exact valid_submit hvalid ⟨a.nextOrderIdValue, side, type, price, quantity⟩ rfl

private theorem Submits.firstId {a a' : BaseAgent} {orders : List AgentOrder}
    (h : a.Submits orders a') : a'.firstId = a.firstId := by
  rcases h with ⟨-, rfl⟩ | ⟨side, type, price, quantity, hsubmit⟩
  · rfl
  · obtain ⟨-, rfl⟩ := Prod.mk.inj hsubmit
    exact firstId_nextOrderId a

/-- Orders with new ids are tracked behind the others. -/
theorem ids_foldl_trackOrder (a : BaseAgent) (orders : List AgentOrder)
    (h : (a.activeOrders.map (·.orderId) ++ orders.map (·.orderId)).Nodup) :
    (orders.foldl trackOrder a).activeOrders.map (·.orderId) =
      a.activeOrders.map (·.orderId) ++ orders.map (·.orderId) := by
  induction orders generalizing a with
  | nil => exact (List.append_nil _).symm
  | cons order orders ih =>
    rw [List.map_cons, List.append_cons] at h ⊢
    have hnew : ∀ o ∈ a.activeOrders, o.orderId ≠ order.orderId := by
      intro o ho
      have hfirst := (List.nodup_append.mp (List.nodup_append.mp h).1).2.2
      exact hfirst o.orderId (List.mem_map_of_mem ho) order.orderId List.mem_cons_self
    have htracked : (a.trackOrder order).activeOrders.map (·.orderId) =
        a.activeOrders.map (·.orderId) ++ [order.orderId] := by
      rw [trackOrder_new _ _ hnew, List.map_append, List.map_singleton]
    rw [List.foldl_cons, ih _ (by rw [htracked]; exact h), htracked]

private theorem foldl_trackOrder_keeps (a : BaseAgent) (orders : List AgentOrder) :
    (orders.foldl trackOrder a).nextOrderIdValue = a.nextOrderIdValue ∧
      (orders.foldl trackOrder a).firstId = a.firstId := by
  induction orders generalizing a with
  | nil => exact ⟨rfl, rfl⟩
  | cons order orders ih => exact ih _

end BaseAgent

/-- A noise trader sends one order at most. -/
theorem NoiseTrader.submits {a a' : NoiseTrader} {cfg : NoiseTraderConfig}
    {update : TcpClient.BookUpdateMsg} {draws : NoiseDraws} {orders : List AgentOrder}
    (h : a.onBookUpdate cfg update draws = some (orders, a')) : a.base.Submits orders a'.base := by
  rw [onBookUpdate] at h
  dsimp only at h
  split_ifs at h <;> obtain ⟨rfl, rfl⟩ := Prod.mk.inj (Option.some.inj h)
  · exact Or.inl ⟨rfl, rfl⟩
  · exact Or.inl ⟨rfl, rfl⟩
  · exact Or.inr ⟨_, _, _, _, rfl⟩
  · exact Or.inr ⟨_, _, _, _, rfl⟩

private theorem InformedTrader.submits {a a' : InformedTrader} {cfg : InformedTraderConfig}
    {update : TcpClient.BookUpdateMsg} {draws : SignalDraws} {orders : List AgentOrder}
    (h : a.onBookUpdate cfg update draws = some (orders, a')) : a.base.Submits orders a'.base := by
  rw [onBookUpdate] at h
  dsimp only at h
  split_ifs at h <;> obtain ⟨rfl, rfl⟩ := Prod.mk.inj (Option.some.inj h)
  · exact Or.inl ⟨rfl, rfl⟩
  · exact Or.inl ⟨rfl, rfl⟩
  · exact Or.inl ⟨rfl, rfl⟩
  · exact Or.inl ⟨rfl, rfl⟩
  · exact Or.inr ⟨_, _, _, _, rfl⟩
  · exact Or.inr ⟨_, _, _, _, rfl⟩

private theorem MomentumTrader.base_updateEmas (cfg : MomentumTraderConfig) (a : MomentumTrader)
    (mid : ℚ) : (a.updateEmas cfg mid).base = a.base := by
  unfold updateEmas
  split_ifs <;> rfl

private theorem MomentumTrader.submits {a a' : MomentumTrader} {cfg : MomentumTraderConfig}
    {update : TcpClient.BookUpdateMsg} {draws : SignalDraws} {orders : List AgentOrder}
    (h : a.onBookUpdate cfg update draws = some (orders, a')) : a.base.Submits orders a'.base := by
  rw [onBookUpdate] at h
  have hbase := base_updateEmas cfg a ((update.bestBid + update.bestAsk) / 2 : Int)
  rw [← hbase]
  dsimp only at h
  split_ifs at h <;> obtain ⟨rfl, rfl⟩ := Prod.mk.inj (Option.some.inj h)
  · exact Or.inl ⟨rfl, hbase.symm⟩
  · exact Or.inl ⟨rfl, rfl⟩
  · exact Or.inl ⟨rfl, rfl⟩
  · exact Or.inr ⟨_, _, _, _, rfl⟩
  · exact Or.inr ⟨_, _, _, _, rfl⟩
  · exact Or.inl ⟨rfl, rfl⟩

private theorem LatencyArb.submits {a a' : LatencyArb} {cfg : LatencyArbConfig}
    {update : TcpClient.BookUpdateMsg} {draws : ArbDraws} {orders : List AgentOrder}
    (h : a.onBookUpdate cfg update draws = some (orders, a')) : a.base.Submits orders a'.base := by
  rw [onBookUpdate] at h
  dsimp only at h
  split_ifs at h <;> obtain ⟨rfl, rfl⟩ := Prod.mk.inj (Option.some.inj h) <;>
    first
    | exact Or.inl ⟨rfl, rfl⟩
    | exact Or.inr ⟨_, _, _, _, rfl⟩

namespace MarketMaker

open Tickets

variable {cfg : MarketMakerConfig} {first : Int} {log : List Entry}

/-- The quotes placed so far are numbered and tracked. -/
def Issued (first : Int) (log : List Entry) (placed : BaseAgent × List AgentOrder) : Prop :=
  Valid first ⟨placed.1.nextOrderIdValue, [], placed.1.activeOrders.map (·.orderId), [],
    log ++ (placed.2.map (·.orderId)).map .hand⟩

private theorem Issued.place {placed : BaseAgent × List AgentOrder} (h : Issued first log placed)
    (side : AgentSide) (price quantity : Int) :
    Issued first log (MarketMaker.place side price quantity placed) := by
  have hnext := BaseAgent.valid_submit h
    ⟨placed.1.nextOrderIdValue, side, .limit, price, quantity⟩ rfl
  rw [List.append_assoc] at hnext
  rw [Issued, MarketMaker.place, List.map_append, List.map_append]
  exact hnext

private theorem Issued.levels {placed : BaseAgent × List AgentOrder} (h : Issued first log placed)
    (q : Quotes) (levels : List Nat) :
    Issued first log (levels.foldl (placeLevel cfg q) placed) :=
  foldl_placeLevel (fun side price quantity _ hplaced => hplaced.place side price quantity)
    q levels h

private theorem firstId_levels (q : Quotes) (levels : List Nat)
    (placed : BaseAgent × List AgentOrder) :
    (levels.foldl (placeLevel cfg q) placed).1.firstId = placed.1.firstId :=
  foldl_placeLevel (P := fun later => later.1.firstId = placed.1.firstId)
    (fun _ _ _ later h => (BaseAgent.firstId_nextOrderId later.1).trans h) q levels rfl

private theorem firstId_onBookUpdate (a : MarketMaker) (update : TcpClient.BookUpdateMsg)
    (step : Int) :
    (a.onBookUpdate cfg update step).2.base.firstId = a.base.firstId := by
  rw [onBookUpdate]
  split_ifs
  · rfl
  · dsimp only
    rw [firstId_levels, (estimateSigmaSq_keeps cfg _ _).1]
    rfl

/-- A valid update withdraws all old quotes and places new ones. -/
theorem issued_onBookUpdate {a : MarketMaker} {update : TcpClient.BookUpdateMsg}
    (hvalid : ¬ (update.bestBid ≤ 0 ∨ update.bestAsk ≤ 0)) (step : Int)
    (h : Valid first ⟨a.base.nextOrderIdValue, [], [], [], log⟩) :
    (a.onBookUpdate cfg update step).2.pendingCancels =
        some (a.base.activeOrders.map (·.orderId)) ∧
      Issued first log ((a.onBookUpdate cfg update step).2.base,
        (a.onBookUpdate cfg update step).1) := by
  refine ⟨(onBookUpdate_valid cfg a step hvalid).1, ?_⟩
  rw [onBookUpdate, if_neg hvalid]
  refine Issued.levels ?_ _ _
  rw [Issued, (estimateSigmaSq_keeps cfg _ _).1, List.map_nil, List.map_nil, List.append_nil]
  exact h

end MarketMaker

namespace Agent

variable {T : Type} {cfg : ArenaConfig T} {a a' : Agent} {orders : List AgentOrder}
  {update : TcpClient.BookUpdateMsg} {step : Int} {draws : AgentDraws} {first : Int}
  {traffic : List Sent}

/-- The messages of a turn: the cancels left behind, then the orders. -/
def messages (a' : Agent) (orders : List AgentOrder) : List Sent :=
  a'.pendingCancels.map .cancel ++ orders.map .newOrder

private theorem entries_messages (a' : Agent) (orders : List AgentOrder) :
    (a'.messages orders).map Sent.entry =
      a'.pendingCancels.map .cancel ++ (orders.map (·.orderId)).map .hand := by
  rw [messages, List.map_append, List.map_map, List.map_map, List.map_map]
  rfl

private theorem counter_messages (a' : Agent) (orders : List AgentOrder) (traffic : List Sent) :
    a'.flushed.counter (traffic ++ a'.messages orders) =
      ⟨a'.base.nextOrderIdValue, a'.pendingOrders.map (·.orderId),
        a'.base.activeOrders.map (·.orderId), [],
        traffic.map Sent.entry ++ a'.pendingCancels.map .cancel ++
          (orders.map (·.orderId)).map .hand⟩ := by
  rw [counter, base_flushed, pendingOrders_flushed, pendingCancels_flushed, List.map_append,
    entries_messages, List.append_assoc]

private theorem valid_marketMaker {m : MarketMaker}
    (h : Tickets.Valid first ((Agent.marketMaker m).counter traffic))
    (hsettled : (Agent.marketMaker m).Settled) (mm : MarketMakerConfig) :
    Tickets.Valid first ((Agent.marketMaker (m.onBookUpdate mm update step).2).flushed.counter
      (traffic ++ (Agent.marketMaker (m.onBookUpdate mm update step).2).messages
        (m.onBookUpdate mm update step).1)) := by
  have hnone : (Agent.marketMaker m).pendingCancels = [] := hsettled
  rw [counter, hnone] at h
  by_cases hvalid : update.bestBid ≤ 0 ∨ update.bestAsk ≤ 0
  · have hskip : m.onBookUpdate mm update step = ([], m) := if_pos hvalid
    rw [hskip, counter_messages, hnone, List.map_nil, List.map_nil, List.map_nil,
      List.append_nil, List.append_nil]
    exact h
  · obtain ⟨hpending, hissued⟩ := MarketMaker.issued_onBookUpdate hvalid step h.withdraw.cancel
    have hcancels : (Agent.marketMaker (m.onBookUpdate mm update step).2).pendingCancels =
        m.base.activeOrders.map (·.orderId) := by
      rw [pendingCancels, hpending, Option.getD_some]
    rw [counter_messages, hcancels]
    exact hissued

private theorem valid_human {m : HumanAgent}
    (h : Tickets.Valid first ((Agent.human m).counter traffic)) :
    Tickets.Valid first ((Agent.human (m.onBookUpdate update).2).flushed.counter
      (traffic ++ (Agent.human (m.onBookUpdate update).2).messages (m.onBookUpdate update).1)) := by
  have hnext := h.cancel.hand
  have hids := BaseAgent.ids_foldl_trackOrder m.base m.pendingOrders
    (hnext.once.sublist (List.sublist_append_right _ _))
  rw [counter_messages]
  simp only [HumanAgent.onBookUpdate, base, pendingOrders, pendingCancels, hids,
    (BaseAgent.foldl_trackOrder_keeps _ _).1]
  exact hnext

/-- What holds of an agent's orders between two turns. -/
structure Kept (first : Int) (a : Agent) (traffic : List Sent) : Prop where
  valid : Tickets.Valid first (a.counter traffic)
  first : a.base.firstId = first
  settled : a.Settled

/-- A new agent starts at its own id block with no traffic. -/
theorem Kept.create (k : Nat) (tickSize : ℚ) (id : AgentId) :
    (Agent.create (BaseAgent.create k tickSize).1 id).Kept (k * BaseAgent.idBlock + 1) [] := by
  have hinit := Tickets.Valid.init (k * BaseAgent.idBlock + 1)
  cases id <;> exact ⟨hinit, sub_zero _, by trivial⟩

/-- Telling an informed agent the true price issues nothing. -/
theorem Kept.setTruePrice (h : a.Kept first traffic) (price : Int) :
    (a.setTruePrice price).Kept first traffic where
  valid := by
    rw [counter_setTruePrice]
    exact h.valid
  first := by
    rw [← h.first]
    cases a <;> rfl
  settled := by
    have hsettled := h.settled
    cases a with
    | marketMaker m => exact hsettled
    | _ => trivial

/-- A fill retires an order at most. -/
theorem Kept.onFill (h : a.Kept first traffic) (fill : TcpClient.FillMsg) :
    (a.onFill fill).Kept first traffic where
  valid := by
    rw [counter_onFill]
    exact h.valid.retire ((BaseAgent.activeOrders_onFill a.base fill).map _)
  first := by
    rw [base_onFill, BaseAgent.firstId_onFill, h.first]
  settled := by
    have hsettled := h.settled
    cases a with
    | marketMaker m => exact hsettled
    | _ => trivial

/-- An order the player queues takes the next id and waits to be flushed. -/
theorem Kept.queue {m : HumanAgent} (h : (Agent.human m).Kept first traffic) (side : AgentSide)
    (type : AgentOrderType) (price qty : Int) :
    (Agent.human (m.queue side type price qty)).Kept first traffic where
  valid := by
    have hissue := h.valid.issue
    rw [counter, HumanAgent.queue, pendingOrders, List.map_append]
    exact hissue
  first := (BaseAgent.firstId_nextOrderId m.base).trans h.first
  settled := by trivial

/-- Cancelling every quote only lists cancels of issued orders. -/
theorem Kept.cancelAllQuotes {m : HumanAgent} (h : (Agent.human m).Kept first traffic) :
    (Agent.human m.cancelAllQuotes).Kept first traffic :=
  ⟨h.valid.withdraw, h.first, h.settled⟩

/-- A trader's turn. -/
theorem Kept.submits (h : a.Kept first traffic) (a' : Agent)
    (hsubmits : a.base.Submits orders a'.base)
    (hnone : a.pendingOrders = [] ∧ a.pendingCancels = [])
    (hnone' : a'.pendingOrders = [] ∧ a'.pendingCancels = []) :
    a'.flushed.Kept first (traffic ++ a'.messages orders) where
  valid := by
    have hvalid := h.valid
    rw [counter, hnone.1, hnone.2, List.map_nil] at hvalid
    rw [counter_messages, hnone'.1, hnone'.2, List.map_nil, List.map_nil, List.append_nil]
    exact hsubmits.valid hvalid
  first := by rw [base_flushed, hsubmits.firstId, h.first]
  settled := a'.settled_flushed

private theorem Kept.marketMaker {m : MarketMaker} (h : (Agent.marketMaker m).Kept first traffic)
    (mm : MarketMakerConfig) :
    (Agent.marketMaker (m.onBookUpdate mm update step).2).flushed.Kept first
      (traffic ++ (Agent.marketMaker (m.onBookUpdate mm update step).2).messages
        (m.onBookUpdate mm update step).1) where
  valid := valid_marketMaker h.valid h.settled mm
  first := by
    rw [base_flushed]
    exact (MarketMaker.firstId_onBookUpdate m update step).trans h.first
  settled := settled_flushed _

private theorem Kept.human {m : HumanAgent} (h : (Agent.human m).Kept first traffic) :
    (Agent.human (m.onBookUpdate update).2).flushed.Kept first
      (traffic ++ (Agent.human (m.onBookUpdate update).2).messages
        (m.onBookUpdate update).1) where
  valid := valid_human h.valid
  first := by
    rw [base_flushed]
    exact (BaseAgent.foldl_trackOrder_keeps m.base m.pendingOrders).2.trans h.first
  settled := settled_flushed _

/-- Every agent's turn keeps its orders in order. -/
theorem Kept.turn (h : a.Kept first traffic)
    (hturn : a.onBookUpdate cfg update step draws = some (orders, a')) :
    a'.flushed.Kept first (traffic ++ a'.messages orders) := by
  cases a with
  | marketMaker m =>
    obtain ⟨rfl, rfl⟩ := Prod.mk.inj (Option.some.inj hturn)
    exact h.marketMaker cfg.marketMaker
  | human m =>
    obtain ⟨rfl, rfl⟩ := Prod.mk.inj (Option.some.inj hturn)
    exact h.human
  | noise m =>
    obtain ⟨⟨_, m'⟩, hbook, heq⟩ := Option.map_eq_some_iff.mp hturn
    obtain ⟨rfl, rfl⟩ := Prod.mk.inj heq
    exact h.submits (.noise m') (NoiseTrader.submits hbook) ⟨rfl, rfl⟩ ⟨rfl, rfl⟩
  | informed m =>
    obtain ⟨⟨_, m'⟩, hbook, heq⟩ := Option.map_eq_some_iff.mp hturn
    obtain ⟨rfl, rfl⟩ := Prod.mk.inj heq
    exact h.submits (.informed m') (InformedTrader.submits hbook) ⟨rfl, rfl⟩ ⟨rfl, rfl⟩
  | momentum m =>
    obtain ⟨⟨_, m'⟩, hbook, heq⟩ := Option.map_eq_some_iff.mp hturn
    obtain ⟨rfl, rfl⟩ := Prod.mk.inj heq
    exact h.submits (.momentum m') (MomentumTrader.submits hbook) ⟨rfl, rfl⟩ ⟨rfl, rfl⟩
  | latArb m =>
    obtain ⟨⟨_, m'⟩, hbook, heq⟩ := Option.map_eq_some_iff.mp hturn
    obtain ⟨rfl, rfl⟩ := Prod.mk.inj heq
    exact h.submits (.latArb m') (LatencyArb.submits hbook) ⟨rfl, rfl⟩ ⟨rfl, rfl⟩

end Agent

end LiquidityArena

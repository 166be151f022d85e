import LiquidityArena.Simulation.BaseAgent
import LiquidityArena.Lib.Machine

/-!
# An agent's inventory and its real position

The real position adds up both legs of the fills delivered, whichever of the agent's
orders they are. The agent books a fill once, for the first of its active orders that is
a leg of it. So the two agree as long as every fill has one own leg that is still active,
or none, or two that are not.
-/

namespace LiquidityArena

/-- An agent, the orders it has sent and the fills it was told about. -/
structure AgentRun where
  agent : BaseAgent
  sent : List AgentOrder := []
  delivered : List TcpClient.FillMsg := []

/-- An order is sent and tracked, all orders are cancelled, or a fill is delivered. -/
inductive AgentAction where
  | track (order : AgentOrder)
  | cancelAll
  | fill (fill : TcpClient.FillMsg)

namespace AgentRun

/-- What an action does to the agent and to the records. -/
def step (s : AgentRun) : AgentAction → Option AgentRun
  | .track order =>
    some { s with agent := s.agent.trackOrder order, sent := s.sent ++ [order] }
  | .cancelAll => some { s with agent := s.agent.cancelAll.2 }
  | .fill fill => some { s with agent := s.agent.onFill fill, delivered := s.delivered ++ [fill] }

/-- What a leg of a fill does to the position of an agent that sent these orders. -/
def leg (sent : List AgentOrder) (id quantity : Int) : Int :=
  match sent.find? (·.orderId = id) with
  | none => 0
  | some o => BaseAgent.signed o.side quantity

/-- What a fill does to the position: both of its legs count. -/
def position (sent : List AgentOrder) (fill : TcpClient.FillMsg) : Int :=
  leg sent fill.makerId fill.quantity + leg sent fill.takerId fill.quantity

/-- The inventory is the position, and the cash flow is what was paid for it. -/
structure Ledger (s : AgentRun) : Prop where
  inventory : s.agent.stats.inventory = (s.delivered.map (position s.sent)).sum
  cash : s.agent.stats.realizedPnl =
    (s.delivered.map fun fill => -fill.price * position s.sent fill).sum * s.agent.tickSize

/-- The id of an order the agent has sent. -/
def Own (s : AgentRun) (id : Int) : Prop := ∃ o ∈ s.sent, o.orderId = id

/-- The id of an order the agent considers active. -/
def Active (s : AgentRun) (id : Int) : Prop := ∃ o ∈ s.agent.activeOrders, o.orderId = id

instance (s : AgentRun) (id : Int) : Decidable (s.Own id) := List.decidableBEx _ _

instance (s : AgentRun) (id : Int) : Decidable (s.Active id) := List.decidableBEx _ _

/-- Fills report executions: every order has an id of its own and is sent before it is filled; an
execution is of a positive quantity between two orders, and of opposite sides if both are the
agent's. -/
def Actual (s : AgentRun) : AgentAction → Prop
  | .track order => ¬ s.Own order.orderId ∧
      ∀ fill ∈ s.delivered, fill.makerId ≠ order.orderId ∧ fill.takerId ≠ order.orderId
  | .cancelAll => True
  | .fill fill => 0 < fill.quantity ∧ fill.makerId ≠ fill.takerId ∧
      ∀ o ∈ s.sent, ∀ o' ∈ s.sent, o.orderId = fill.makerId → o'.orderId = fill.takerId →
        o.side ≠ o'.side

instance (s : AgentRun) : DecidablePred s.Actual
  | .track _ => inferInstanceAs (Decidable (_ ∧ _))
  | .cancelAll => inferInstanceAs (Decidable True)
  | .fill _ => inferInstanceAs (Decidable (_ ∧ _ ∧ _))

/-- A fill with one own leg finds it active, and one with two own legs finds none of them. -/
def Recognised (s : AgentRun) : AgentAction → Prop
  | .fill fill =>
    if s.Own fill.makerId ∧ s.Own fill.takerId then
      ¬ s.Active fill.makerId ∧ ¬ s.Active fill.takerId
    else (s.Own fill.makerId → s.Active fill.makerId) ∧ (s.Own fill.takerId → s.Active fill.takerId)
  | _ => True

instance (s : AgentRun) : DecidablePred s.Recognised
  | .fill _ => inferInstanceAs (Decidable (ite _ _ _))
  | .track _ => inferInstanceAs (Decidable True)
  | .cancelAll => inferInstanceAs (Decidable True)

/-- Active orders have been sent, and the orders sent have ids of their own. -/
structure Inv (s : AgentRun) : Prop where
  sent : ∀ o ∈ s.agent.activeOrders, o ∈ s.sent
  distinct : (s.sent.map (·.orderId)).Nodup

private theorem signed_ne_zero (side : AgentSide) {quantity : Int} (h : 0 < quantity) :
    BaseAgent.signed side quantity ≠ 0 := by
  cases side <;> simp only [BaseAgent.signed] <;> omega

private theorem signed_add_signed {side side' : AgentSide} (h : side ≠ side') (quantity : Int) :
    BaseAgent.signed side quantity + BaseAgent.signed side' quantity = 0 := by
  cases side <;> cases side' <;> simp_all [BaseAgent.signed]

/-- What the agent books for a fill. -/
def booked (a : BaseAgent) (fill : TcpClient.FillMsg) : Int :=
  match a.matching fill with
  | none => 0
  | some o => BaseAgent.signed o.side fill.quantity

/-- A fill changes inventory and cash by what is booked. -/
theorem onFill_spec (a : BaseAgent) (fill : TcpClient.FillMsg) :
    (a.onFill fill).stats.inventory = a.stats.inventory + booked a fill ∧
      (a.onFill fill).stats.realizedPnl =
        a.stats.realizedPnl + (-fill.price * booked a fill : Int) * a.tickSize ∧
      (a.onFill fill).tickSize = a.tickSize ∧
      ∀ o ∈ (a.onFill fill).activeOrders, o ∈ a.activeOrders := by
  rw [BaseAgent.onFill, booked]
  cases a.matching fill with
  | none => simp
  | some order =>
    refine ⟨rfl, rfl, rfl, fun o ho => ?_⟩
    dsimp only at ho
    split_ifs at ho
    · exact (List.mem_filter.mp ho).1
    · exact ho

variable {s : AgentRun} {fill : TcpClient.FillMsg}

private theorem leg_of_own (h : s.Inv) {o : AgentOrder} (ho : o ∈ s.sent) (quantity : Int) :
    leg s.sent o.orderId quantity = BaseAgent.signed o.side quantity := by
  have hfind : s.sent.find? (·.orderId = o.orderId) = some o := by
    cases hfound : s.sent.find? (·.orderId = o.orderId) with
    | none => simpa using List.find?_eq_none.mp hfound o ho
    | some o' =>
      have hid := List.find?_some hfound
      rw [List.inj_on_of_nodup_map h.distinct (List.mem_of_find?_eq_some hfound) ho
        (of_decide_eq_true hid)]
  rw [leg, hfind]

private theorem leg_of_not_own {id : Int} (h : ¬ s.Own id) (quantity : Int) :
    leg s.sent id quantity = 0 := by
  have hfind : s.sent.find? (·.orderId = id) = none :=
    List.find?_eq_none.mpr fun o ho heq => h ⟨o, ho, of_decide_eq_true heq⟩
  rw [leg, hfind]

/-- The order a fill is matched with is active and is one of its two legs. -/
theorem of_matching {a : BaseAgent} {o : AgentOrder} (h : a.matching fill = some o) :
    o ∈ a.activeOrders ∧ (o.orderId = fill.makerId ∨ o.orderId = fill.takerId) := by
  have hleg := List.find?_some h
  exact ⟨List.mem_of_find?_eq_some h, by simpa using hleg⟩

/-- When no order matches, neither leg of the fill is an active order. -/
theorem not_leg_of_matching {a : BaseAgent} {o : AgentOrder} (h : a.matching fill = none)
    (ho : o ∈ a.activeOrders) : ¬ (o.orderId = fill.makerId ∨ o.orderId = fill.takerId) := by
  have hno := List.find?_eq_none.mp h o ho
  simpa using hno

private theorem booked_eq_zero_iff (hq : 0 < fill.quantity) : booked s.agent fill = 0 ↔
    ¬ s.Active fill.makerId ∧ ¬ s.Active fill.takerId := by
  rw [booked]
  cases hmatch : s.agent.matching fill with
  | none =>
    refine iff_of_true rfl ⟨?_, ?_⟩
    · rintro ⟨o, ho, hid⟩
      exact not_leg_of_matching hmatch ho (Or.inl hid)
    · rintro ⟨o, ho, hid⟩
      exact not_leg_of_matching hmatch ho (Or.inr hid)
  | some o =>
    obtain ⟨hmem, hid⟩ := of_matching hmatch
    refine iff_of_false (signed_ne_zero o.side hq) ?_
    rintro ⟨hmaker, htaker⟩
    exact hid.elim (fun hid => hmaker ⟨o, hmem, hid⟩) fun hid => htaker ⟨o, hmem, hid⟩

private theorem Inv.own (h : s.Inv) {id : Int} (hactive : s.Active id) : s.Own id := by
  obtain ⟨o, ho, hid⟩ := hactive
  exact ⟨o, h.sent o ho, hid⟩

/-- With one own leg, what is booked is that leg exactly when it is active. -/
theorem booked_eq_signed_iff (h : s.Inv) (hq : 0 < fill.quantity) {o : AgentOrder}
    (ho : o ∈ s.sent) (hleg : o.orderId = fill.makerId ∨ o.orderId = fill.takerId)
    (honly : ∀ id, id = fill.makerId ∨ id = fill.takerId → s.Own id → id = o.orderId) :
    booked s.agent fill = BaseAgent.signed o.side fill.quantity ↔ s.Active o.orderId := by
  constructor
  · intro hbooked
    by_contra hno
    have hidle : ∀ id, id = fill.makerId ∨ id = fill.takerId → ¬ s.Active id := fun id hid hactive =>
      hno (honly id hid (h.own hactive) ▸ hactive)
    have hzero := booked_eq_zero_iff hq |>.mpr ⟨hidle _ (Or.inl rfl), hidle _ (Or.inr rfl)⟩
    exact signed_ne_zero o.side hq (hbooked ▸ hzero)
  · rintro ⟨o₁, ho₁, hid₁⟩
    rw [booked]
    cases hmatch : s.agent.matching fill with
    | none => exact absurd (hid₁ ▸ hleg) (not_leg_of_matching hmatch ho₁)
    | some o' =>
      obtain ⟨hmem, hid⟩ := of_matching hmatch
      have hsent := h.sent o' hmem
      rw [List.inj_on_of_nodup_map h.distinct hsent ho (honly _ hid ⟨o', hsent, rfl⟩)]

/-- What is booked is the change of the position exactly when the fill is recognised. -/
theorem booked_eq_position_iff (h : s.Inv) (hactual : s.Actual (.fill fill)) :
    booked s.agent fill = position s.sent fill ↔ s.Recognised (.fill fill) := by
  obtain ⟨hq, -, hopposite⟩ := hactual
  rw [Recognised, position]
  by_cases hmaker : s.Own fill.makerId
  · obtain ⟨o, ho, hid⟩ := id hmaker
    by_cases htaker : s.Own fill.takerId
    · -- both legs: the position stays
      obtain ⟨o', ho', hid'⟩ := id htaker
      rw [if_pos ⟨hmaker, htaker⟩, ← booked_eq_zero_iff hq, ← hid, ← hid', leg_of_own h ho,
        leg_of_own h ho', signed_add_signed (hopposite o ho o' ho' hid hid')]
    · have hbooked := booked_eq_signed_iff h hq ho (Or.inl hid) fun id' hleg hown =>
        hleg.elim (fun heq => heq.trans hid.symm) fun heq => absurd (heq ▸ hown) htaker
      rw [if_neg fun hboth => htaker hboth.2, leg_of_not_own htaker, add_zero, ← hid,
        leg_of_own h ho, hbooked]
      exact ⟨fun hactive => ⟨fun _ => hactive, fun hown => absurd hown htaker⟩,
        fun hrec => hrec.1 (hid ▸ hmaker)⟩
  · rw [if_neg fun hboth => hmaker hboth.1, leg_of_not_own hmaker, zero_add]
    by_cases htaker : s.Own fill.takerId
    · obtain ⟨o, ho, hid⟩ := id htaker
      have hbooked := booked_eq_signed_iff h hq ho (Or.inr hid) fun id' hleg hown =>
        hleg.elim (fun heq => absurd (heq ▸ hown) hmaker) fun heq => heq.trans hid.symm
      rw [← hid, leg_of_own h ho, hbooked]
      exact ⟨fun hactive => ⟨fun hown => absurd hown hmaker, fun _ => hactive⟩,
        fun hrec => hrec.2 (hid ▸ htaker)⟩
    · rw [leg_of_not_own htaker, booked_eq_zero_iff hq]
      exact iff_of_true ⟨fun hactive => hmaker (h.own hactive), fun hactive => htaker (h.own hactive)⟩
        ⟨fun hown => absurd hown hmaker, fun hown => absurd hown htaker⟩

private theorem mem_trackOrder {a : BaseAgent} {order o : AgentOrder}
    (h : o ∈ (a.trackOrder order).activeOrders) : o ∈ a.activeOrders ∨ o = order := by
  rw [BaseAgent.trackOrder] at h
  dsimp only at h
  split_ifs at h
  · obtain ⟨o', ho', rfl⟩ := List.mem_map.mp h
    split_ifs
    · exact Or.inr rfl
    · exact Or.inl ho'
  · exact (List.mem_append.mp h).imp_right List.mem_singleton.mp

private theorem position_append {sent : List AgentOrder} {order : AgentOrder}
    (hmaker : fill.makerId ≠ order.orderId) (htaker : fill.takerId ≠ order.orderId) :
    position (sent ++ [order]) fill = position sent fill := by
  have hleg : ∀ {id : Int}, id ≠ order.orderId → ∀ quantity,
      leg (sent ++ [order]) id quantity = leg sent id quantity := by
    intro id hid quantity
    rw [leg, leg, List.find?_append, List.find?_singleton, if_neg (by simpa using hid.symm),
      Option.or_none]
  rw [position, position, hleg hmaker, hleg htaker]

private theorem map_position_append (sent : List AgentOrder) {order : AgentOrder}
    {delivered : List TcpClient.FillMsg}
    (h : ∀ fill ∈ delivered, fill.makerId ≠ order.orderId ∧ fill.takerId ≠ order.orderId) :
    ∀ fill ∈ delivered, position (sent ++ [order]) fill = position sent fill :=
  fun fill hfill => position_append (h fill hfill).1 (h fill hfill).2

/-- The ledger stays right exactly when a fill is recognised. -/
theorem Ledger.step_iff (h : s.Inv) (hledger : s.Ledger) {a : AgentAction} (hactual : s.Actual a) :
    ∃ s', s.step a = some s' ∧ s'.Inv ∧ (s'.Ledger ↔ s.Recognised a) := by
  cases a with
  | track order =>
    obtain ⟨hfresh, hunfilled⟩ := hactual
    refine ⟨_, rfl, ⟨fun o ho => ?_, ?_⟩, iff_of_true ⟨?_, ?_⟩ trivial⟩
    · rcases mem_trackOrder ho with ho | rfl
      · exact List.mem_append_left _ (h.sent o ho)
      · exact List.mem_append_right _ List.mem_cons_self
    · rw [List.map_append, List.nodup_append]
      refine ⟨h.distinct, List.nodup_singleton _, fun id hid id' hid' heq => ?_⟩
      obtain ⟨o, ho, rfl⟩ := List.mem_map.mp hid
      exact hfresh ⟨o, ho, heq.trans (List.mem_singleton.mp hid')⟩
    · have hmap := List.map_congr_left (map_position_append s.sent hunfilled)
      exact hledger.inventory.trans (congrArg List.sum hmap.symm)
    · have hmap := List.map_congr_left fun fill hfill =>
        congrArg (-fill.price * ·) (map_position_append s.sent hunfilled fill hfill)
      dsimp only
      rw [hmap]
      exact hledger.cash
  | cancelAll =>
    exact ⟨_, rfl, ⟨by simp [BaseAgent.cancelAll], h.distinct⟩,
      iff_of_true ⟨hledger.inventory, hledger.cash⟩ trivial⟩
  | fill fill =>
    obtain ⟨hinventory, hcash, htick, hactive⟩ := onFill_spec s.agent fill
    refine ⟨_, rfl, ⟨fun o ho => h.sent o (hactive o ho), h.distinct⟩, ?_⟩
    rw [← booked_eq_position_iff h hactual]
    constructor
    · intro hledger'
      have heq := hledger'.inventory
      dsimp only at heq
      rw [hinventory, List.map_append, List.sum_append, hledger.inventory] at heq
      simpa using heq
    · intro hbooked
      refine ⟨?_, ?_⟩
      · dsimp only
        rw [hinventory, List.map_append, List.sum_append, hledger.inventory, hbooked]
        simp
      · dsimp only
        rw [hcash, htick, List.map_append, List.sum_append, hledger.cash, hbooked]
        simp
        ring

end AgentRun

/-- Along every run in which fills report executions, inventory and cash flow are those of the
agent's real position all the time exactly when every fill is recognised: one with one own leg
finds that leg active, and one with two own legs finds none of them active. -/
theorem ledger_iff_recognised (tickSize : ℚ) (firstId : Int) (actions : List AgentAction)
    (hactual : Machine.Meets AgentRun.step AgentRun.Actual
      { agent := { tickSize := tickSize, nextOrderIdValue := firstId } } actions) :
    Machine.Always AgentRun.step AgentRun.Ledger
        { agent := { tickSize := tickSize, nextOrderIdValue := firstId } } actions ↔
      Machine.Meets AgentRun.step AgentRun.Recognised
        { agent := { tickSize := tickSize, nextOrderIdValue := firstId } } actions :=
  Machine.always_iff_meets AgentRun.Inv (fun h hledger hactual => hledger.step_iff h hactual)
    ⟨by simp, by simp⟩ ⟨rfl, by simp⟩ hactual

/-- An order filled in two parts, then another one cancelled before it trades. -/
theorem ledger_iff_recognised_two_parts :
    Machine.Always AgentRun.step AgentRun.Ledger
      { agent := { tickSize := 1 / 100, nextOrderIdValue := 1 } }
      [.track ⟨1, .bid, .limit, 100, 10⟩, .fill ⟨1, 50, 100, 4⟩, .track ⟨2, .ask, .limit, 102, 5⟩,
        .fill ⟨51, 1, 100, 6⟩, .cancelAll] :=
  (ledger_iff_recognised (1 / 100) 1 _ (by decide)).mpr (by decide)

/-- A fill that arrives after the agent asked to cancel the order is not booked. -/
theorem late_fill_not_booked :
    Machine.Meets AgentRun.step AgentRun.Actual
        { agent := { tickSize := 1 / 100, nextOrderIdValue := 1 } }
        [.track ⟨1, .bid, .limit, 100, 10⟩, .cancelAll, .fill ⟨1, 50, 100, 10⟩] ∧
      ∃ s, Machine.run AgentRun.step { agent := { tickSize := 1 / 100, nextOrderIdValue := 1 } }
          [.track ⟨1, .bid, .limit, 100, 10⟩, .cancelAll, .fill ⟨1, 50, 100, 10⟩] = some s ∧
        s.agent.stats.inventory = 0 ∧ (s.delivered.map (AgentRun.position s.sent)).sum = 10 ∧
        ¬ s.Ledger := by
  refine ⟨by decide, _, rfl, rfl, by decide, fun hledger => ?_⟩
  have hzero := hledger.inventory
  revert hzero
  decide

end LiquidityArena

import LiquidityArena.Correctness.AgentLedger
import LiquidityArena.Simulation.LatencyArb

/-!
# The position limit of the latency arbitrageur

Each order is sized against the inventory of the moment, and its fills arrive later and in
parts. What counts is the inventory together with all that is outstanding on one side: fills
move quantity from the latter to the former, and all of it can arrive. So the limit is safe
exactly as long as every order fits under it next to what is outstanding.
-/

namespace LiquidityArena

/-- An arbitrageur, the orders it has sent and what has been executed of them, by id. -/
structure ArbRun where
  arb : LatencyArb
  sent : List AgentOrder := []
  executed : List (Int × Int) := []

/-- The true price is set, a book update arrives, or a fill does. -/
inductive ArbAction where
  | setTruePrice (price : Int)
  | bookUpdate (update : TcpClient.BookUpdateMsg) (draws : ArbDraws)
  | fill (fill : TcpClient.FillMsg)

namespace ArbRun

/-- A new arbitrageur. -/
def init (agentCounter : Nat) (tickSize : ℚ) : ArbRun :=
  { arb := { base := (BaseAgent.create agentCounter tickSize).1 } }

/-- The inventory that the agent has counted. -/
def inventory (s : ArbRun) : Int := s.arb.base.stats.inventory

/-- The order is a leg of the fill. -/
def Leg (fill : TcpClient.FillMsg) (o : AgentOrder) : Prop :=
  o.orderId = fill.makerId ∨ o.orderId = fill.takerId

instance (fill : TcpClient.FillMsg) : DecidablePred (Leg fill) :=
  fun _ => inferInstanceAs (Decidable (_ ∨ _))

/-- The orders of a decision go out. -/
def sends (s : ArbRun) (decision : List AgentOrder × LatencyArb) : ArbRun :=
  { s with arb := decision.2, sent := s.sent ++ decision.1 }

/-- One step; an update that raises an error changes nothing. -/
def step (cfg : LatencyArbConfig) (s : ArbRun) : ArbAction → Option ArbRun
  | .setTruePrice price => some { s with arb := s.arb.setTruePrice price }
  | .bookUpdate update draws =>
    some (s.sends ((s.arb.onBookUpdate cfg update draws).getD ([], s.arb)))
  | .fill fill => some { s with
      arb := { s.arb with base := s.arb.base.onFill fill }
      executed := s.executed ++
        (s.sent.filter fun o => Leg fill o).map fun o => (o.orderId, fill.quantity) }

/-- What has been executed of the order with an id. -/
def filled (s : ArbRun) (id : Int) : Int :=
  ((s.executed.filter fun x => x.1 = id).map Prod.snd).sum

/-- What can still be executed of an order. -/
def rest (s : ArbRun) (o : AgentOrder) : Int := o.quantity - s.filled o.orderId

/-- What can still be executed of the orders of a side. -/
def outstanding (s : ArbRun) (side : AgentSide) : Int :=
  ((s.sent.filter fun o => o.side = side).map s.rest).sum

/-- Sizes are drawn from their range; a fill has at most one leg that the agent has sent, and
executes no more of it than is left. -/
def Actual (cfg : LatencyArbConfig) (s : ArbRun) : ArbAction → Prop
  | .setTruePrice _ => True
  | .bookUpdate _ draws => cfg.minQty ≤ cfg.maxQty → cfg.minQty ≤ draws.qty ∧ draws.qty ≤ cfg.maxQty
  | .fill fill => 0 ≤ fill.quantity ∧
      (∀ o ∈ s.sent, ∀ o' ∈ s.sent, Leg fill o → Leg fill o' → o = o') ∧
      ∀ o ∈ s.sent, Leg fill o → fill.quantity ≤ s.rest o

instance (cfg : LatencyArbConfig) (s : ArbRun) : DecidablePred (s.Actual cfg)
  | .setTruePrice _ => inferInstanceAs (Decidable True)
  | .bookUpdate _ _ => inferInstanceAs (Decidable (_ → _))
  | .fill _ => inferInstanceAs (Decidable (_ ∧ _ ∧ _))

/-- The limit holds, now and after any further fills of the orders that are out. -/
def Safe (cfg : LatencyArbConfig) (s : ArbRun) : Prop :=
  ∀ (fills : List TcpClient.FillMsg) (s' : ArbRun),
    Machine.Meets (step cfg) (Actual cfg) s (fills.map .fill) →
    Machine.run (step cfg) s (fills.map .fill) = some s' → |s'.inventory| ≤ cfg.maxPosition

/-- An order that is sent fits under the limit next to what is outstanding on its side. A market
order that is sized to the limit does if nothing is outstanding. -/
def Covered (cfg : LatencyArbConfig) (s : ArbRun) : ArbAction → Prop
  | .bookUpdate update draws => 0 < update.bestBid → 0 < update.bestAsk → 0 < s.arb.truePrice →
      if s.arb.PicksOffAsk cfg update draws then cfg.minQty ≤ cfg.maxQty →
        s.outstanding .bid = 0 ∨ s.inventory + s.outstanding .bid + draws.qty ≤ cfg.maxPosition
      else if s.arb.PicksOffBid cfg update draws then cfg.minQty ≤ cfg.maxQty →
        s.outstanding .ask = 0 ∨ -cfg.maxPosition ≤ s.inventory - s.outstanding .ask - draws.qty
      else if s.arb.Flattens cfg draws then
        if 0 < s.inventory then
          s.outstanding .ask + min s.inventory cfg.maxQty ≤ cfg.maxPosition + s.inventory
        else s.outstanding .bid + min (-s.inventory) cfg.maxQty ≤ cfg.maxPosition - s.inventory
      else True
  | _ => True

instance (cfg : LatencyArbConfig) (s : ArbRun) : DecidablePred (s.Covered cfg)
  | .bookUpdate _ _ => inferInstanceAs (Decidable (_ → _ → _ → ite _ _ _))
  | .setTruePrice _ => inferInstanceAs (Decidable True)
  | .fill _ => inferInstanceAs (Decidable True)

/-- Orders have ids of their own and are active while something is left of them; nothing is executed
of other orders, nor more than there is. -/
structure Inv (cfg : LatencyArbConfig) (s : ArbRun) : Prop where
  distinct : (s.sent.map (·.orderId)).Nodup
  fresh : ∀ o ∈ s.sent, o.orderId < s.arb.base.nextOrderIdValue
  active : ∀ o ∈ s.arb.base.activeOrders, o ∈ s.sent
  tracked : ∀ o ∈ s.sent, 0 < s.rest o → o ∈ s.arb.base.activeOrders
  known : ∀ x ∈ s.executed, 0 ≤ x.2 ∧ ∃ o ∈ s.sent, o.orderId = x.1
  within : ∀ o ∈ s.sent, 0 ≤ s.rest o
  sized : s.sent ≠ [] → 1 ≤ cfg.maxQty
  idle : s.sent = [] → s.inventory = 0

variable {cfg : LatencyArbConfig} {s : ArbRun} {fill : TcpClient.FillMsg} {o : AgentOrder}

private theorem Inv.eq_of_id (h : s.Inv cfg) {o o' : AgentOrder} (ho : o ∈ s.sent)
    (ho' : o' ∈ s.sent)
    (hid : o.orderId = o'.orderId) : o = o' :=
  List.inj_on_of_nodup_map h.distinct ho ho' hid

private theorem Inv.filled_nonneg (h : s.Inv cfg) (id : Int) : 0 ≤ s.filled id := by
  apply List.sum_nonneg
  intro q hq
  obtain ⟨x, hx, rfl⟩ := List.mem_map.mp hq
  exact (h.known x (List.mem_filter.mp hx).1).1

private theorem Inv.outstanding_nonneg (h : s.Inv cfg) (side : AgentSide) :
    0 ≤ s.outstanding side := by
  apply List.sum_nonneg
  intro q hq
  obtain ⟨o, ho, rfl⟩ := List.mem_map.mp hq
  exact h.within o (List.mem_filter.mp ho).1

private theorem inv_init (cfg : LatencyArbConfig) (agentCounter : Nat) (tickSize : ℚ) :
    (init agentCounter tickSize).Inv cfg := by
  constructor <;> simp [init, BaseAgent.create, inventory]

/-- A fill of other orders changes nothing. -/
theorem Inv.fill_foreign (h : s.Inv cfg) (hno : ∀ o ∈ s.sent, ¬ Leg fill o) :
    s.step cfg (.fill fill) = some s := by
  have hbase : s.arb.base.onFill fill = s.arb.base := by
    rw [BaseAgent.onFill]
    cases hmatch : s.arb.base.matching fill with
    | none => rfl
    | some o =>
      obtain ⟨hmem, hleg⟩ := AgentRun.of_matching hmatch
      exact absurd hleg (hno o (h.active o hmem))
  have hnone : (s.sent.filter fun o => Leg fill o) = [] := by
    rw [List.filter_eq_nil_iff]
    intro o ho hleg
    exact hno o ho (of_decide_eq_true hleg)
  rw [step, hbase, hnone, List.map_nil, List.append_nil]

/-- The own leg of a fill is the one that the agent books. -/
theorem Inv.booked_own (h : s.Inv cfg) (hactual : s.Actual cfg (.fill fill)) (ho : o ∈ s.sent)
    (hleg : Leg fill o) :
    AgentRun.booked s.arb.base fill = BaseAgent.signed o.side fill.quantity := by
  obtain ⟨hq, honly, hfits⟩ := hactual
  rw [AgentRun.booked]
  cases hmatch : s.arb.base.matching fill with
  | none =>
    have hidle : o ∉ s.arb.base.activeOrders := fun hmem =>
      AgentRun.not_leg_of_matching hmatch hmem hleg
    have hdone : ¬ 0 < s.rest o := fun hpos => hidle (h.tracked o ho hpos)
    have hzero : fill.quantity = 0 := by
      have hle := hfits o ho hleg
      omega
    rw [hzero]
    cases o.side <;> rfl
  | some o' =>
    obtain ⟨hmem, hleg'⟩ := AgentRun.of_matching hmatch
    rw [honly o' (h.active o' hmem) o ho hleg' hleg]

/-- What an execution of an own order does. -/
structure Filled (s : ArbRun) (o : AgentOrder) (q : Int) (s' : ArbRun) : Prop where
  sent : s'.sent = s.sent
  inventory : s'.inventory = s.inventory + BaseAgent.signed o.side q
  rest : ∀ o' ∈ s.sent, s'.rest o' = s.rest o' - if o' = o then q else 0

/-- The active orders after a fill. -/
theorem mem_active_onFill {a : BaseAgent} {o' : AgentOrder} (ho' : o' ∈ a.activeOrders)
    (hkeep : ∀ o, a.matching fill = some o → o'.orderId = o.orderId → fill.quantity < o.quantity) :
    o' ∈ (a.onFill fill).activeOrders := by
  rw [BaseAgent.onFill]
  cases hmatch : a.matching fill with
  | none => exact ho'
  | some o =>
    dsimp only
    split_ifs with hle
    · refine List.mem_filter.mpr ⟨ho', decide_eq_true fun hid => ?_⟩
      exact absurd (hkeep o hmatch hid) (not_lt.mpr hle)
    · exact ho'

private theorem nextOrderIdValue_onFill (a : BaseAgent) :
    (a.onFill fill).nextOrderIdValue = a.nextOrderIdValue := by
  rw [BaseAgent.onFill]
  split <;> rfl

/-- An actual fill executes a single own order. -/
theorem Inv.legs (h : s.Inv cfg) (hactual : s.Actual cfg (.fill fill)) (ho : o ∈ s.sent)
    (hleg : Leg fill o) : (s.sent.filter fun o' => Leg fill o') = [o] := by
  have hnodup : s.sent.Nodup := h.distinct.of_map _
  refine List.perm_singleton.mp ((List.perm_ext_iff_of_nodup (hnodup.filter _)
    (List.nodup_singleton o)).mpr fun o' => ?_)
  rw [List.mem_filter, List.mem_singleton, decide_eq_true_eq]
  constructor
  · rintro ⟨ho', hleg'⟩
    exact hactual.2.1 o' ho' o ho hleg' hleg
  · rintro rfl
    exact ⟨ho, hleg⟩

/-- An execution leaves less of its own order and as much of every other. -/
theorem Inv.rest_executed (h : s.Inv cfg) (ho : o ∈ s.sent) (arb : LatencyArb) (q : Int)
    {o' : AgentOrder} (ho' : o' ∈ s.sent) :
    ArbRun.rest { s with arb, executed := s.executed ++ [(o.orderId, q)] } o' =
      s.rest o' - if o' = o then q else 0 := by
  have hid : o.orderId = o'.orderId ↔ o' = o :=
    ⟨fun he => h.eq_of_id ho' ho he.symm, fun he => by rw [he]⟩
  have hfilled : ArbRun.filled { s with arb, executed := s.executed ++ [(o.orderId, q)] } o'.orderId =
      s.filled o'.orderId + if o' = o then q else 0 := by
    rw [filled, List.filter_append, List.map_append, List.sum_append]
    by_cases he : o' = o
    · simp [filled, he]
    · simp [filled, he, mt hid.mp he]
  rw [rest, hfilled, rest]
  omega

/-- A fill of an own order is booked, and leaves less of the order. -/
theorem Inv.fill_own (h : s.Inv cfg) (hactual : s.Actual cfg (.fill fill)) (ho : o ∈ s.sent)
    (hleg : Leg fill o) :
    ∃ s', s.step cfg (.fill fill) = some s' ∧ s'.Inv cfg ∧ s.Filled o fill.quantity s' := by
  have ⟨hq, honly, hfits⟩ := hactual
  obtain ⟨hinventory, -, -, hactive⟩ := AgentRun.onFill_spec s.arb.base fill
  rw [h.booked_own hactual ho hleg] at hinventory
  set s' : ArbRun := { s with
    arb := { s.arb with base := s.arb.base.onFill fill }
    executed := s.executed ++ [(o.orderId, fill.quantity)] } with hs'
  have hstep : s.step cfg (.fill fill) = some s' := by
    rw [step, h.legs hactual ho hleg]
    rfl
  have hrest : ∀ o' ∈ s.sent, s'.rest o' = s.rest o' - if o' = o then fill.quantity else 0 :=
    fun o' ho' => h.rest_executed ho _ _ ho'
  refine ⟨s', hstep, ⟨h.distinct, ?_, ?_, ?_, ?_, ?_, h.sized, ?_⟩, rfl, hinventory, hrest⟩
  · intro o' ho'
    rw [hs', nextOrderIdValue_onFill]
    exact h.fresh o' ho'
  · exact fun o' ho' => h.active o' (hactive o' ho')
  · intro o' ho' hpos
    rw [hrest o' ho'] at hpos
    have hleft : 0 < s.rest o' := by
      split_ifs at hpos <;> omega
    refine mem_active_onFill (h.tracked o' ho' hleft) fun o₂ hmatch hid => ?_
    -- The matched order is the own leg, and more of it is left than is executed.
    obtain ⟨hmem, hleg₂⟩ := AgentRun.of_matching hmatch
    obtain rfl := honly o₂ (h.active o₂ hmem) o ho hleg₂ hleg
    have hsame := h.eq_of_id ho' ho hid
    have hnonneg := h.filled_nonneg o₂.orderId
    rw [if_pos hsame, hsame, rest] at hpos
    omega
  · intro x hx
    rcases List.mem_append.mp hx with hx | hx
    · exact h.known x hx
    · rw [List.mem_singleton.mp hx]
      exact ⟨hq, o, ho, rfl⟩
  · intro o' ho'
    rw [hrest o' ho']
    have hwithin := h.within o' ho'
    split_ifs with he
    · have hle := hfits o ho hleg
      rw [he]
      omega
    · omega
  · exact fun hnil => absurd hnil (List.ne_nil_of_mem ho)

variable {s' : ArbRun} {q : Int}

/-- An execution takes as much off what is outstanding. -/
theorem Filled.outstanding (h : s.Inv cfg) (ho : o ∈ s.sent) (hfill : s.Filled o q s')
    (side : AgentSide) :
    s'.outstanding side = s.outstanding side - if o.side = side then q else 0 := by
  have hnodup : (s.sent.filter fun x => x.side = side).Nodup := (h.distinct.of_map _).filter _
  have hmap : (s.sent.filter fun x => x.side = side).map s'.rest =
      (s.sent.filter fun x => x.side = side).map fun x => if x = o then s.rest x - q else s.rest x := by
    refine List.map_congr_left fun x hx => ?_
    rw [hfill.rest x (List.mem_filter.mp hx).1]
    split_ifs
    · rfl
    · rw [sub_zero]
  rw [ArbRun.outstanding, hfill.sent, hmap, List.sum_map_ite_eq, ArbRun.outstanding]
  by_cases hside : o.side = side
  · have hmem : o ∈ s.sent.filter fun x => x.side = side :=
      List.mem_filter.mpr ⟨ho, decide_eq_true hside⟩
    rw [List.count_eq_one_of_mem hnodup hmem, one_smul, if_pos hside]
    omega
  · have hout : o ∉ s.sent.filter fun x => x.side = side := fun hmem =>
      hside (of_decide_eq_true (List.mem_filter.mp hmem).2)
    rw [List.count_eq_zero_of_not_mem hout, zero_smul, if_neg hside]
    omega

/-- The inventory together with all that is outstanding on one side is within the limit. -/
structure Hedged (cfg : LatencyArbConfig) (s : ArbRun) : Prop where
  long : s.inventory + s.outstanding .bid ≤ cfg.maxPosition
  short : -cfg.maxPosition ≤ s.inventory - s.outstanding .ask

/-- A fill keeps the invariant, and moves no more than was outstanding. -/
theorem Inv.step_fill (h : s.Inv cfg) (hactual : s.Actual cfg (.fill fill)) :
    ∃ s', s.step cfg (.fill fill) = some s' ∧ s'.Inv cfg ∧ (s.Hedged cfg → s'.Hedged cfg) := by
  by_cases hown : ∃ o ∈ s.sent, Leg fill o
  · obtain ⟨o, ho, hleg⟩ := hown
    obtain ⟨s', hstep, hinv, hfill⟩ := h.fill_own hactual ho hleg
    refine ⟨s', hstep, hinv, fun hhedged => ?_⟩
    have hq := hactual.1
    have hlong := hhedged.long
    have hshort := hhedged.short
    have hbid := hfill.outstanding h ho .bid
    have hask := hfill.outstanding h ho .ask
    have hinventory := hfill.inventory
    cases hside : o.side <;> simp [hside, BaseAgent.signed] at hbid hask hinventory <;>
      exact ⟨by omega, by omega⟩
  · have hno : ∀ o ∈ s.sent, ¬ Leg fill o := fun o ho hleg => hown ⟨o, ho, hleg⟩
    exact ⟨s, h.fill_foreign hno, h, id⟩

/-- All that is left of some orders of a side can be executed. -/
theorem Inv.deliver (h : s.Inv cfg) (orders : List AgentOrder) (side : AgentSide)
    (hnodup : orders.Nodup) (hsent : ∀ o ∈ orders, o ∈ s.sent ∧ o.side = side) :
    ∃ (fills : List TcpClient.FillMsg) (s' : ArbRun),
      Machine.Meets (step cfg) (Actual cfg) s (fills.map .fill) ∧
      Machine.run (step cfg) s (fills.map .fill) = some s' ∧
      s'.inventory = s.inventory + BaseAgent.signed side (orders.map s.rest).sum := by
  induction orders generalizing s with
  | nil =>
    refine ⟨[], s, trivial, rfl, ?_⟩
    cases side <;> simp [BaseAgent.signed]
  | cons o orders ih =>
    obtain ⟨hno, hrest⟩ := List.nodup_cons.mp hnodup
    obtain ⟨ho, hside⟩ := hsent o List.mem_cons_self
    set f : TcpClient.FillMsg := ⟨o.orderId, s.arb.base.nextOrderIdValue, o.price, s.rest o⟩ with hf
    have hleg : ∀ o' ∈ s.sent, Leg f o' → o' = o := by
      rintro o' ho' (hid | hid)
      · exact h.eq_of_id ho' ho hid
      · exact absurd hid (h.fresh o' ho').ne
    have hactual : s.Actual cfg (.fill f) := by
      refine ⟨h.within o ho, fun o₁ h₁ o₂ h₂ hl₁ hl₂ => ?_, fun o' ho' hl => ?_⟩
      · rw [hleg o₁ h₁ hl₁, hleg o₂ h₂ hl₂]
      · rw [hleg o' ho' hl]
    obtain ⟨s₁, hstep, hinv, hfill⟩ := h.fill_own hactual ho (Or.inl rfl)
    obtain ⟨fills, s', hmeets, hrun, hinventory⟩ := ih hinv hrest fun o' ho' => by
      rw [hfill.sent]
      exact hsent o' (List.mem_cons_of_mem _ ho')
    have hsame : orders.map s₁.rest = orders.map s.rest := by
      refine List.map_congr_left fun o' ho' => ?_
      rw [hfill.rest o' (hsent o' (List.mem_cons_of_mem _ ho')).1,
        if_neg (ne_of_mem_of_not_mem ho' hno), sub_zero]
    refine ⟨f :: fills, s', ⟨hactual, fun s₂ hs₂ => ?_⟩, ?_, ?_⟩
    · rw [Option.some.inj (hs₂.symm.trans hstep)]
      exact hmeets
    · rw [List.map_cons, Machine.run, hstep]
      exact hrun
    · rw [hinventory, hsame, hfill.inventory, hside, List.map_cons, List.sum_cons]
      cases side <;> simp only [BaseAgent.signed, hf] <;> omega

/-- Fills keep the inventory hedged. -/
theorem Inv.hedged_fills (h : s.Inv cfg) (hhedged : s.Hedged cfg) {fills : List TcpClient.FillMsg}
    (hmeets : Machine.Meets (step cfg) (Actual cfg) s (fills.map .fill))
    (hrun : Machine.run (step cfg) s (fills.map .fill) = some s') : s'.Inv cfg ∧ s'.Hedged cfg := by
  induction fills generalizing s with
  | nil =>
    obtain rfl := Option.some.inj hrun
    exact ⟨h, hhedged⟩
  | cons f fills ih =>
    obtain ⟨s₁, hstep, hinv, hkept⟩ := h.step_fill hmeets.1
    rw [List.map_cons, Machine.run, hstep] at hrun
    exact ih hinv (hkept hhedged) (hmeets.2 s₁ hstep) hrun

/-- The limit is safe exactly when the inventory is hedged against all that is outstanding. -/
theorem Inv.safe_iff (h : s.Inv cfg) : s.Safe cfg ↔ s.Hedged cfg := by
  constructor
  · intro hsafe
    have hall : ∀ side, |s.inventory + BaseAgent.signed side (s.outstanding side)| ≤
        cfg.maxPosition := by
      intro side
      obtain ⟨fills, s', hmeets, hrun, hinventory⟩ := h.deliver
        (s.sent.filter fun o => o.side = side) side ((h.distinct.of_map _).filter _)
        fun o ho => by simpa using ho
      rw [outstanding, ← hinventory]
      exact hsafe fills s' hmeets hrun
    exact ⟨(abs_le.mp (hall .bid)).2, (abs_le.mp (hall .ask)).1⟩
  · intro hhedged fills s' hmeets hrun
    obtain ⟨hinv, hlong, hshort⟩ := h.hedged_fills hhedged hmeets hrun
    have hbid := hinv.outstanding_nonneg .bid
    have hask := hinv.outstanding_nonneg .ask
    exact abs_le.mpr ⟨by omega, by omega⟩

/-- A decision to send nothing. -/
theorem sends_nil (s : ArbRun) : s.sends ([], s.arb) = s := by
  rw [sends, List.append_nil]

/-- Nothing of an order with a new id was executed. -/
theorem Inv.filled_new (h : s.Inv cfg) {id : Int} (hid : ∀ o ∈ s.sent, o.orderId ≠ id) :
    s.filled id = 0 := by
  have hnone : (s.executed.filter fun x => x.1 = id) = [] := by
    rw [List.filter_eq_nil_iff]
    intro x hx heq
    obtain ⟨-, o, ho, he⟩ := h.known x hx
    exact hid o ho (he.trans (of_decide_eq_true heq))
  rw [filled, hnone]
  rfl

/-- An order that is sent is outstanding. -/
theorem Inv.send (h : s.Inv cfg) (side : AgentSide) (type : AgentOrderType) (price : Int)
    {quantity : Int} (hpos : 0 < quantity) (hsize : 1 ≤ cfg.maxQty) :
    (s.sends (s.arb.send side type price quantity)).Inv cfg ∧
      (s.sends (s.arb.send side type price quantity)).inventory = s.inventory ∧
      ∀ side', (s.sends (s.arb.send side type price quantity)).outstanding side' =
        s.outstanding side' + if side = side' then quantity else 0 := by
  set order : AgentOrder := ⟨s.arb.base.nextOrderIdValue, side, type, price, quantity⟩ with horder
  set s' := s.sends (s.arb.send side type price quantity) with hs'
  have hsent : s'.sent = s.sent ++ [order] := rfl
  have hid : ∀ o ∈ s.sent, o.orderId ≠ order.orderId := fun o ho => (h.fresh o ho).ne
  have hactive : s'.arb.base.activeOrders = s.arb.base.activeOrders ++ [order] :=
    s.arb.base.nextOrderId.2.trackOrder_new order fun o ho => hid o (h.active o ho)
  have hrest : s'.rest order = quantity := by
    change quantity - s.filled order.orderId = quantity
    rw [h.filled_new hid, sub_zero]
  refine ⟨⟨?_, ?_, ?_, ?_, ?_, ?_, fun _ => hsize, fun hnil => ?_⟩, rfl, fun side' => ?_⟩
  · rw [hsent, List.map_append, List.nodup_append]
    refine ⟨h.distinct, List.nodup_singleton _, fun x hx y hy => ?_⟩
    obtain ⟨o, ho, rfl⟩ := List.mem_map.mp hx
    rw [List.mem_singleton.mp hy]
    exact hid o ho
  · intro o ho
    change o.orderId < s.arb.base.nextOrderIdValue + 1
    rcases List.mem_append.mp ho with ho | ho
    · exact (h.fresh o ho).trans (lt_add_one _)
    · rw [List.mem_singleton.mp ho]
      exact lt_add_one _
  · intro o ho
    rw [hactive] at ho
    exact List.mem_append.mpr ((List.mem_append.mp ho).imp_left (h.active o))
  · intro o ho hleft
    rw [hactive]
    exact List.mem_append.mpr ((List.mem_append.mp ho).imp_left fun ho => h.tracked o ho hleft)
  · intro x hx
    obtain ⟨hq, o, ho, he⟩ := h.known x hx
    exact ⟨hq, o, List.mem_append_left _ ho, he⟩
  · intro o ho
    rcases List.mem_append.mp ho with ho | ho
    · exact h.within o ho
    · rw [List.mem_singleton.mp ho, hrest]
      exact hpos.le
  · rw [hsent] at hnil
    exact absurd hnil (by simp)
  · rw [outstanding, hsent, List.filter_append, List.map_append, List.sum_append]
    refine congrArg (_ + ·) ?_
    by_cases hside : side = side'
    · rw [if_pos hside, List.filter_cons_of_pos (by simpa using hside), List.filter_nil,
        List.map_singleton, List.sum_singleton, hrest]
    · rw [if_neg hside, List.filter_cons_of_neg (by simpa using hside)]
      rfl

/-- A decision keeps the invariant, and keeps the limit safe exactly on a condition. -/
def SafeIff (cfg : LatencyArbConfig) (s : ArbRun)
    (decision : Option (List AgentOrder × LatencyArb)) (P : Prop) : Prop :=
  (s.sends (decision.getD ([], s.arb))).Inv cfg ∧
    ((s.sends (decision.getD ([], s.arb))).Safe cfg ↔ P)

private theorem SafeIff.congr {decision : Option (List AgentOrder × LatencyArb)} {P Q : Prop}
    (h : s.SafeIff cfg decision P) (hPQ : P ↔ Q) : s.SafeIff cfg decision Q :=
  ⟨h.1, h.2.trans hPQ⟩

/-- Sending nothing is safe. -/
theorem Inv.safeIff_nothing (h : s.Inv cfg) (hhedged : s.Hedged cfg) {P : Prop} (hP : P) :
    s.SafeIff cfg (some ([], s.arb)) P ∧ s.SafeIff cfg none P := by
  have hquiet : s.SafeIff cfg none P := by
    rw [SafeIff, Option.getD_none, sends_nil]
    exact ⟨h, iff_of_true (h.safe_iff.mpr hhedged) hP⟩
  exact ⟨hquiet, hquiet⟩

/-- Sending a bid is safe if it fits under the limit. -/
theorem Inv.safeIff_bid (h : s.Inv cfg) (hhedged : s.Hedged cfg) (type : AgentOrderType)
    (price : Int) {quantity : Int} (hpos : 0 < quantity) (hsize : 1 ≤ cfg.maxQty) :
    s.SafeIff cfg (some (s.arb.send .bid type price quantity))
      (s.inventory + s.outstanding .bid + quantity ≤ cfg.maxPosition) := by
  obtain ⟨hinv, hinventory, houtstanding⟩ := h.send .bid type price hpos hsize
  have hshort := hhedged.short
  have hbid := houtstanding .bid
  have hask := houtstanding .ask
  rw [if_pos rfl] at hbid
  rw [if_neg (by simp)] at hask
  rw [SafeIff, Option.getD_some, hinv.safe_iff]
  refine ⟨hinv, ?_, fun hfits => ⟨by omega, by omega⟩⟩
  rintro ⟨hlong, -⟩
  omega

/-- Sending an ask is safe if it fits under the limit. -/
theorem Inv.safeIff_ask (h : s.Inv cfg) (hhedged : s.Hedged cfg) (type : AgentOrderType)
    (price : Int) {quantity : Int} (hpos : 0 < quantity) (hsize : 1 ≤ cfg.maxQty) :
    s.SafeIff cfg (some (s.arb.send .ask type price quantity))
      (-cfg.maxPosition ≤ s.inventory - s.outstanding .ask - quantity) := by
  obtain ⟨hinv, hinventory, houtstanding⟩ := h.send .ask type price hpos hsize
  have hlong := hhedged.long
  have hbid := houtstanding .bid
  have hask := houtstanding .ask
  rw [if_neg (by simp)] at hbid
  rw [if_pos rfl] at hask
  rw [SafeIff, Option.getD_some, hinv.safe_iff]
  refine ⟨hinv, ?_, fun hfits => ⟨by omega, by omega⟩⟩
  rintro ⟨-, hshort⟩
  omega

/-- Picking off an ask. -/
theorem Inv.safeIff_buy (h : s.Inv cfg) (hhedged : s.Hedged cfg) {size : Int}
    (hsize : cfg.minQty ≤ cfg.maxQty → cfg.minQty ≤ size ∧ size ≤ cfg.maxQty)
    (hroom : s.inventory < cfg.maxPosition) :
    s.SafeIff cfg (if cfg.maxQty + 1 ≤ cfg.minQty then none
      else if min size (cfg.maxPosition - s.inventory) > 0 then
        some (s.arb.send .bid .market 0 (min size (cfg.maxPosition - s.inventory)))
      else some ([], s.arb))
      (cfg.minQty ≤ cfg.maxQty → s.outstanding .bid = 0 ∨
        s.inventory + s.outstanding .bid + size ≤ cfg.maxPosition) := by
  have hmin := cfg.minQty_pos
  have hlong := hhedged.long
  have hbid := h.outstanding_nonneg .bid
  by_cases hempty : cfg.maxQty + 1 ≤ cfg.minQty
  · rw [if_pos hempty]
    exact (h.safeIff_nothing hhedged fun hle => by omega).2
  · obtain ⟨hlow, hhigh⟩ := hsize (by omega)
    have hpos : 0 < min size (cfg.maxPosition - s.inventory) := by omega
    rw [if_neg hempty, if_pos hpos]
    refine (h.safeIff_bid hhedged .market 0 hpos (by omega)).congr ⟨fun hfits _ => ?_, fun hcov => ?_⟩
    · omega
    · have hcovered := hcov (by omega)
      omega

/-- Picking off a bid. -/
theorem Inv.safeIff_sell (h : s.Inv cfg) (hhedged : s.Hedged cfg) {size : Int}
    (hsize : cfg.minQty ≤ cfg.maxQty → cfg.minQty ≤ size ∧ size ≤ cfg.maxQty)
    (hroom : s.inventory > -cfg.maxPosition) :
    s.SafeIff cfg (if cfg.maxQty + 1 ≤ cfg.minQty then none
      else if min size (cfg.maxPosition + s.inventory) > 0 then
        some (s.arb.send .ask .market 0 (min size (cfg.maxPosition + s.inventory)))
      else some ([], s.arb))
      (cfg.minQty ≤ cfg.maxQty → s.outstanding .ask = 0 ∨
        -cfg.maxPosition ≤ s.inventory - s.outstanding .ask - size) := by
  have hmin := cfg.minQty_pos
  have hshort := hhedged.short
  have hask := h.outstanding_nonneg .ask
  by_cases hempty : cfg.maxQty + 1 ≤ cfg.minQty
  · rw [if_pos hempty]
    exact (h.safeIff_nothing hhedged fun hle => by omega).2
  · obtain ⟨hlow, hhigh⟩ := hsize (by omega)
    have hpos : 0 < min size (cfg.maxPosition + s.inventory) := by omega
    rw [if_neg hempty, if_pos hpos]
    refine (h.safeIff_ask hhedged .market 0 hpos (by omega)).congr ⟨fun hfits _ => ?_, fun hcov => ?_⟩
    · omega
    · have hcovered := hcov (by omega)
      omega

/-- Reducing a large inventory. It comes from orders, whose sizes were drawn from a range that is
not empty. -/
theorem Inv.safeIff_flatten (h : s.Inv cfg) (hhedged : s.Hedged cfg) (mid : Int)
    (hlarge : |s.inventory| > cfg.maxPosition / 2) :
    s.SafeIff cfg (if s.inventory > 0 then
        some (s.arb.send .ask .limit (mid + 1) (min s.inventory cfg.maxQty))
      else some (s.arb.send .bid .limit (mid - 1) (min (-s.inventory) cfg.maxQty)))
      (if 0 < s.inventory then
        s.outstanding .ask + min s.inventory cfg.maxQty ≤ cfg.maxPosition + s.inventory
      else s.outstanding .bid + min (-s.inventory) cfg.maxQty ≤ cfg.maxPosition - s.inventory) := by
  have hlimit := cfg.maxPosition_pos
  have hne : s.inventory ≠ 0 := by
    intro hzero
    rw [hzero, abs_zero] at hlarge
    omega
  have hsize := h.sized fun hnil => hne (h.idle hnil)
  by_cases hheld : 0 < s.inventory
  · have hpos : 0 < min s.inventory cfg.maxQty := by omega
    rw [if_pos hheld, if_pos hheld]
    exact (h.safeIff_ask hhedged .limit (mid + 1) hpos hsize).congr (by omega)
  · have hpos : 0 < min (-s.inventory) cfg.maxQty := by omega
    rw [if_neg hheld, if_neg hheld]
    exact (h.safeIff_bid hhedged .limit (mid - 1) hpos hsize).congr (by omega)

/-- A book update keeps the limit safe exactly if the order that it leads to is covered. -/
theorem Inv.safeIff_bookUpdate (h : s.Inv cfg) (hhedged : s.Hedged cfg)
    {update : TcpClient.BookUpdateMsg} {draws : ArbDraws}
    (hactual : s.Actual cfg (.bookUpdate update draws)) :
    s.SafeIff cfg (s.arb.onBookUpdate cfg update draws) (s.Covered cfg (.bookUpdate update draws)) := by
  simp only [LatencyArb.onBookUpdate, Covered,
    show s.arb.base.stats.inventory = s.inventory from rfl]
  by_cases hquotes : update.bestBid ≤ 0 ∨ update.bestAsk ≤ 0
  · rw [if_pos hquotes]
    exact (h.safeIff_nothing hhedged fun hb ha => by omega).1
  by_cases htrue : s.arb.truePrice ≤ 0
  · rw [if_neg hquotes, if_pos htrue]
    exact (h.safeIff_nothing hhedged fun _ _ ht => by omega).1
  have hguard : ∀ P : Prop,
      (0 < update.bestBid → 0 < update.bestAsk → 0 < s.arb.truePrice → P) ↔ P := fun P =>
    ⟨fun hP => hP (by omega) (by omega) (by omega), fun hP _ _ _ => hP⟩
  rw [if_neg hquotes, if_neg htrue, hguard]
  by_cases hbuy : s.arb.PicksOffAsk cfg update draws
  · rw [if_pos hbuy, if_pos hbuy]
    exact h.safeIff_buy hhedged hactual hbuy.2.1
  rw [if_neg hbuy, if_neg hbuy]
  by_cases hsell : s.arb.PicksOffBid cfg update draws
  · rw [if_pos hsell, if_pos hsell]
    exact h.safeIff_sell hhedged hactual hsell.2.1
  rw [if_neg hsell, if_neg hsell]
  by_cases hflat : s.arb.Flattens cfg draws
  · rw [if_pos hflat, if_pos hflat]
    exact h.safeIff_flatten hhedged _ hflat.1
  · rw [if_neg hflat, if_neg hflat]
    exact (h.safeIff_nothing hhedged trivial).1

/-- A step keeps the limit safe exactly if the order that it sends is covered. -/
theorem Inv.step_iff (h : s.Inv cfg) (hsafe : s.Safe cfg) {a : ArbAction} (hactual : s.Actual cfg a) :
    ∃ s', s.step cfg a = some s' ∧ s'.Inv cfg ∧ (s'.Safe cfg ↔ s.Covered cfg a) := by
  have hhedged := h.safe_iff.mp hsafe
  cases a with
  | setTruePrice price =>
    have hinv : Inv cfg { s with arb := s.arb.setTruePrice price } :=
      ⟨h.distinct, h.fresh, h.active, h.tracked, h.known, h.within, h.sized, h.idle⟩
    exact ⟨_, rfl, hinv, iff_of_true (hinv.safe_iff.mpr ⟨hhedged.long, hhedged.short⟩) trivial⟩
  | bookUpdate update draws => exact ⟨_, rfl, h.safeIff_bookUpdate hhedged hactual⟩
  | fill fill =>
    obtain ⟨s', hstep, hinv, hkept⟩ := h.step_fill hactual
    exact ⟨s', hstep, hinv, iff_of_true (hinv.safe_iff.mpr (hkept hhedged)) trivial⟩

end ArbRun

/-- Along every run of true prices, book updates and fills, the position limit holds all the time,
whatever further fills of the orders that are out arrive and when, exactly if every order that is
sent fits under the limit next to what is outstanding on its side. -/
theorem position_limit_iff (cfg : LatencyArbConfig) (agentCounter : Nat) (tickSize : ℚ)
    (actions : List ArbAction)
    (hactual : Machine.Meets (ArbRun.step cfg) (ArbRun.Actual cfg) (ArbRun.init agentCounter tickSize)
      actions) :
    Machine.Always (ArbRun.step cfg) (ArbRun.Safe cfg) (ArbRun.init agentCounter tickSize) actions ↔
      Machine.Meets (ArbRun.step cfg) (ArbRun.Covered cfg) (ArbRun.init agentCounter tickSize)
        actions := by
  have hinv := ArbRun.inv_init cfg agentCounter tickSize
  have hsafe : (ArbRun.init agentCounter tickSize).Safe cfg := by
    rw [hinv.safe_iff]
    have hpos := cfg.maxPosition_pos.le
    exact ⟨by simpa [ArbRun.init, ArbRun.inventory, ArbRun.outstanding, BaseAgent.create] using hpos,
      by simpa [ArbRun.init, ArbRun.inventory, ArbRun.outstanding, BaseAgent.create] using hpos⟩
  exact Machine.always_iff_meets (ArbRun.Inv cfg) (fun h hsafe hactual => h.step_iff hsafe hactual)
    hinv hsafe hactual

/-- A second order is sent when the first one is filled in part, and fits. -/
theorem position_limit_iff_two_orders :
    Machine.Always (ArbRun.step {}) (ArbRun.Safe {}) (ArbRun.init 0 (1 / 100))
      [.setTruePrice 10050, .bookUpdate ⟨9995, 10005, 0, 0, [], [], [], []⟩ ⟨1 / 2, 1 / 2, 1 / 2, 20⟩,
        .fill ⟨50, 1, 10005, 15⟩,
        .bookUpdate ⟨9995, 10005, 0, 0, [], [], [], []⟩ ⟨1 / 2, 1 / 2, 1 / 2, 30⟩] :=
  (position_limit_iff {} 0 (1 / 100) _ (by decide +kernel)).mpr (by decide +kernel)

/-- Two market orders of 50 go out before the first one is filled, and the inventory is 100. -/
theorem limit_exceeded_by_outstanding :
    Machine.Meets (ArbRun.step {}) (ArbRun.Actual {}) (ArbRun.init 0 (1 / 100))
        [.setTruePrice 10050,
          .bookUpdate ⟨9995, 10005, 0, 0, [], [], [], []⟩ ⟨1 / 2, 1 / 2, 1 / 2, 50⟩,
          .bookUpdate ⟨9995, 10005, 0, 0, [], [], [], []⟩ ⟨1 / 2, 1 / 2, 1 / 2, 50⟩,
          .fill ⟨60, 1, 10005, 50⟩, .fill ⟨61, 2, 10005, 50⟩] ∧
      ∃ s, Machine.run (ArbRun.step {}) (ArbRun.init 0 (1 / 100))
          [.setTruePrice 10050,
            .bookUpdate ⟨9995, 10005, 0, 0, [], [], [], []⟩ ⟨1 / 2, 1 / 2, 1 / 2, 50⟩,
            .bookUpdate ⟨9995, 10005, 0, 0, [], [], [], []⟩ ⟨1 / 2, 1 / 2, 1 / 2, 50⟩,
            .fill ⟨60, 1, 10005, 50⟩, .fill ⟨61, 2, 10005, 50⟩] = some s ∧
        s.inventory = 100 ∧ ¬ |s.inventory| ≤ ({} : LatencyArbConfig).maxPosition :=
  ⟨by decide +kernel, _, rfl, by decide +kernel, by decide +kernel⟩

end LiquidityArena

import LiquidityArena.Correctness.QuoteTurnover

/-!
# What the market maker quotes

However the inventory and the variance stand, the two prices are at least two ticks apart,
and the further levels move away from the other side. A side on which the inventory has
reached its limit is not quoted.
-/

namespace LiquidityArena

/-- The levels of a market maker do not move towards the other side. -/
def MarketMakerConfig.Widening (cfg : MarketMakerConfig) : Prop := 0 ≤ cfg.levelSpacing

instance (cfg : MarketMakerConfig) : Decidable cfg.Widening :=
  inferInstanceAs (Decidable (_ ≤ _))

/-- Two orders whose prices would let them trade with each other. -/
def AgentOrder.Crosses (x y : AgentOrder) : Prop :=
  x.side = .bid ∧ y.side = .ask ∧ y.price ≤ x.price ∨
    x.side = .ask ∧ y.side = .bid ∧ x.price ≤ y.price

namespace MarketMaker

/-- What an agent may quote: limit orders of at most the base quantity, on the sides where its
inventory is within the limit, with every bid at least two ticks below every ask. -/
structure Quoted (cfg : MarketMakerConfig) (inventory : Int) (orders : List AgentOrder) : Prop where
  distinct : (orders.map (·.orderId)).Nodup
  limit : ∀ o ∈ orders, o.orderType = .limit ∧ 1 ≤ o.quantity ∧ o.quantity ≤ max 1 cfg.baseQuantity
  bids : ∀ o ∈ orders, o.side = .bid → inventory < cfg.maxInventory
  asks : ∀ o ∈ orders, o.side = .ask → -cfg.maxInventory < inventory
  spread : ∀ o ∈ orders, ∀ o' ∈ orders, o.side = .bid → o'.side = .ask → o.price + 2 ≤ o'.price

/-- No two of the quotes trade with each other. -/
theorem Quoted.not_crosses {cfg : MarketMakerConfig} {inventory : Int} {orders : List AgentOrder}
    (h : Quoted cfg inventory orders) {o o' : AgentOrder} (ho : o ∈ orders) (ho' : o' ∈ orders) :
    ¬ o.Crosses o' := by
  rintro (⟨hbid, hask, hle⟩ | ⟨hask, hbid, hle⟩)
  · have hspread := h.spread o ho o' ho' hbid hask
    omega
  · have hspread := h.spread o' ho' o ho hbid hask
    omega

/-- The two prices are at least two ticks apart. -/
theorem quotes_spread (cfg : MarketMakerConfig) (m : MarketMaker) (mid : ℚ) (step : Int) :
    (quotes cfg m mid step).bidPrice + 2 ≤ (quotes cfg m mid step).askPrice := by
  refine roundHalfEven_add_two_le ?_
  have hmin := le_max_right (cfg.gamma * m.sigmaSq *
    max (1 / 1000) (1 - (step : ℚ) / cfg.totalSteps) +
      2 / cfg.gamma * cfg.log (1 + cfg.gamma / cfg.kappa)) 2
  linarith

/-- The quantity is reduced from the base quantity, but to no less than one. -/
theorem quotes_qty (cfg : MarketMakerConfig) (m : MarketMaker) (mid : ℚ) (step : Int) :
    1 ≤ (quotes cfg m mid step).qty ∧ (quotes cfg m mid step).qty ≤ max 1 cfg.baseQuantity := by
  refine ⟨le_max_left _ _, max_le (le_max_left _ _) ?_⟩
  set ratio : ℚ := if 0 < cfg.maxInventory then
    |m.base.stats.inventory| / cfg.maxInventory else 0 with hratio
  have hnonneg : 0 ≤ ratio := by
    rw [hratio]
    split_ifs with hmax
    · positivity
    · exact le_rfl
  have hscale : max (1 / 10 : ℚ) (1 - ratio * (8 / 10)) ≤ 1 :=
    max_le (by norm_num) (by linarith)
  have htruncate := truncate_mul_le cfg.baseQuantity
    ((by norm_num : (0 : ℚ) ≤ 1 / 10).trans (le_max_left _ _)) hscale
  exact htruncate.trans (max_le_max zero_le_one le_rfl)

/-- Orders of a turn: limit orders of at most the quantity, bids at most at one price and asks at
least at the other, and each side only if it is quoted. -/
structure OnLadder (q : Quotes) (orders : List AgentOrder) : Prop where
  limit : ∀ o ∈ orders, o.orderType = .limit ∧ 1 ≤ o.quantity ∧ o.quantity ≤ q.qty
  bids : ∀ o ∈ orders, o.side = .bid → q.canBuy = true ∧ o.price ≤ q.bidPrice
  asks : ∀ o ∈ orders, o.side = .ask → q.canSell = true ∧ q.askPrice ≤ o.price

variable {cfg : MarketMakerConfig} {q : Quotes} {placed : BaseAgent × List AgentOrder}

private theorem OnLadder.append {orders : List AgentOrder} (h : OnLadder q orders) {o : AgentOrder}
    (hlimit : o.orderType = .limit ∧ 1 ≤ o.quantity ∧ o.quantity ≤ q.qty)
    (hbid : o.side = .bid → q.canBuy = true ∧ o.price ≤ q.bidPrice)
    (hask : o.side = .ask → q.canSell = true ∧ q.askPrice ≤ o.price) :
    OnLadder q (orders ++ [o]) := by
  refine ⟨fun x hx => ?_, fun x hx hside => ?_, fun x hx hside => ?_⟩ <;>
    rcases List.mem_append.mp hx with hx | hx
  · exact h.limit x hx
  · rw [List.mem_singleton.mp hx]
    exact hlimit
  · exact h.bids x hx hside
  · obtain rfl := List.mem_singleton.mp hx
    exact hbid hside
  · exact h.asks x hx hside
  · obtain rfl := List.mem_singleton.mp hx
    exact hask hside

private theorem OnLadder.bid (h : OnLadder q placed.2) (hbuy : q.canBuy = true)
    {price quantity : Int} (hprice : price ≤ q.bidPrice)
    (hquantity : 1 ≤ quantity ∧ quantity ≤ q.qty) :
    OnLadder q (place .bid price quantity placed).2 :=
  h.append ⟨rfl, hquantity⟩ (fun _ => ⟨hbuy, hprice⟩) fun hside => by cases hside

private theorem OnLadder.ask (h : OnLadder q placed.2) (hsell : q.canSell = true)
    {price quantity : Int} (hprice : q.askPrice ≤ price)
    (hquantity : 1 ≤ quantity ∧ quantity ≤ q.qty) :
    OnLadder q (place .ask price quantity placed).2 :=
  h.append ⟨rfl, hquantity⟩ (fun hside => by cases hside) fun _ => ⟨hsell, hprice⟩

/-- A further level keeps away from the other side. -/
theorem OnLadder.level (h : OnLadder q placed.2) (hcfg : cfg.Widening) (hqty : 1 ≤ q.qty)
    (level : Nat) :
    OnLadder q (placeLevel cfg q placed level).2 := by
  have hoffset : 0 ≤ (level : Int) * cfg.levelSpacing := mul_nonneg (Int.natCast_nonneg _) hcfg
  have hquantity : 1 ≤ max 1 (q.qty / (level + 1)) ∧ max 1 (q.qty / (level + 1)) ≤ q.qty :=
    ⟨le_max_left _ _, max_le hqty (Int.ediv_le_self _ (by omega))⟩
  refine placeLevel_rule (M := fun placed => OnLadder q placed.2)
    (R := fun placed => OnLadder q placed.2) (fun hbuy => ?_) h
    (fun bought hbought hsell => ?_) fun _ => id
  · exact h.bid hbuy (by omega) hquantity
  · exact hbought.ask hsell (by omega) hquantity

private theorem OnLadder.levels (h : OnLadder q placed.2) (hcfg : cfg.Widening) (hqty : 1 ≤ q.qty)
    (levels : List Nat) :
    OnLadder q (levels.foldl (placeLevel cfg q) placed).2 := by
  induction levels generalizing placed with
  | nil => exact h
  | cons level levels ih => exact ih (h.level hcfg hqty level)

/-- Orders placed one after the other have ids of their own, all of them used up. -/
structure Numbered (placed : BaseAgent × List AgentOrder) : Prop where
  distinct : (placed.2.map (·.orderId)).Nodup
  used : ∀ o ∈ placed.2, o.orderId < placed.1.nextOrderIdValue

private theorem Numbered.place (h : Numbered placed) (side : AgentSide) (price quantity : Int) :
    Numbered (MarketMaker.place side price quantity placed) := by
  refine ⟨?_, fun o ho => ?_⟩
  · refine (List.map_append ..).symm ▸ List.nodup_append.mpr
      ⟨h.distinct, List.nodup_singleton _, fun id hid id' hid' => ?_⟩
    obtain ⟨o, ho, rfl⟩ := List.mem_map.mp hid
    rw [List.mem_singleton.mp hid']
    exact (h.used o ho).ne
  · rcases List.mem_append.mp ho with ho | ho
    · exact (h.used o ho).trans (Int.lt_succ _)
    · rw [List.mem_singleton.mp ho]
      exact Int.lt_succ _

private theorem Numbered.levels (h : Numbered placed) (levels : List Nat) :
    Numbered (levels.foldl (placeLevel cfg q) placed) :=
  foldl_placeLevel (fun side price quantity _ hplaced => hplaced.place side price quantity)
    q levels h

/-- The orders that an update leads to are quotes for the inventory of that moment. -/
theorem onBookUpdate_quoted (hcfg : cfg.Widening) (m : MarketMaker)
    (update : TcpClient.BookUpdateMsg) (step : Int) :
    Quoted cfg m.base.stats.inventory (m.onBookUpdate cfg update step).1 := by
  rw [onBookUpdate]
  split_ifs
  · exact ⟨by simp, by simp, by simp, by simp, by simp⟩
  · dsimp only
    set m' := estimateSigmaSq cfg _ _ with hm'
    have hinventory : m'.base.stats.inventory = m.base.stats.inventory :=
      congrArg (fun a => a.stats.inventory) (estimateSigmaSq_keeps cfg _ _).1
    have hqty := quotes_qty cfg m' ((update.bestBid + update.bestAsk) / 2) step
    have hladder : OnLadder (quotes cfg m' ((update.bestBid + update.bestAsk) / 2) step)
        ((List.range cfg.numLevels).foldl (placeLevel cfg (quotes cfg m'
          ((update.bestBid + update.bestAsk) / 2) step)) (m'.base, [])).2 :=
      OnLadder.levels ⟨by simp, by simp, by simp⟩ hcfg hqty.1 _
    have hnumbered : Numbered (m'.base, []) := ⟨List.nodup_nil, by simp⟩
    refine ⟨(hnumbered.levels _).distinct, fun o ho => ?_, fun o ho hside => ?_,
      fun o ho hside => ?_, fun o ho o' ho' hside hside' => ?_⟩
    · obtain ⟨hlimit, hpos, hle⟩ := hladder.limit o ho
      exact ⟨hlimit, hpos, hle.trans hqty.2⟩
    · rw [← hinventory]
      exact of_decide_eq_true (hladder.bids o ho hside).1
    · rw [← hinventory]
      exact of_decide_eq_true (hladder.asks o ho hside).1
    · have hspread := quotes_spread cfg m' ((update.bestBid + update.bestAsk) / 2) step
      have hbid := (hladder.bids o ho hside).2
      have hask := (hladder.asks o' ho' hside').2
      omega

end MarketMaker

/-- The orders among the messages, in their order. -/
def ordersOf (msgs : List Sent) : List AgentOrder :=
  msgs.filterMap fun
    | .newOrder o => some o
    | .cancel _ => none

@[simp] theorem ordersOf_append (msgs msgs' : List Sent) :
    ordersOf (msgs ++ msgs') = ordersOf msgs ++ ordersOf msgs' := List.filterMap_append

@[simp] theorem ordersOf_cancels (ids : List Int) : ordersOf (ids.map .cancel) = [] := by
  simp [ordersOf, List.filterMap_map]

@[simp] theorem ordersOf_newOrders (orders : List AgentOrder) :
    ordersOf (orders.map .newOrder) = orders := by
  simp [ordersOf, List.filterMap_map]

/-- The orders of some messages are those their new-order messages carry. -/
theorem mem_ordersOf {msgs : List Sent} {o : AgentOrder} :
    o ∈ ordersOf msgs ↔ Sent.newOrder o ∈ msgs := by
  rw [ordersOf, List.mem_filterMap]
  constructor
  · rintro ⟨msg, hmsg, heq⟩
    cases msg with
    | newOrder o' => exact Option.some.inj heq ▸ hmsg
    | cancel id => cases heq
  · exact fun h => ⟨_, h, rfl⟩

namespace Simulator

variable {cfg : MarketMakerConfig}

private theorem flushCancels_sent (s : Simulator) : ∃ ids : List Int,
    s.flushCancels.sent = s.sent ++ ids.map .cancel := by
  unfold flushCancels submitCancels
  split
  · dsimp only
    split_ifs
    · exact ⟨_, rfl⟩
    · exact ⟨[], by simp⟩
  · exact ⟨[], by simp⟩

/-- What a turn sends are quotes for the inventory with which it begins. -/
theorem processEvent_quoted (hcfg : cfg.Widening) (s : Simulator) (turn : AgentTurn) :
    ∃ msgs, (processEvent cfg s turn).sent = s.sent ++ msgs ∧
      MarketMaker.Quoted cfg s.mm.base.stats.inventory (ordersOf msgs) := by
  have hnone : MarketMaker.Quoted cfg s.mm.base.stats.inventory [] :=
    ⟨by simp, by simp, by simp, by simp, by simp⟩
  cases turn with
  | other messages =>
    refine ⟨[], ?_, hnone⟩
    rw [List.append_nil, processEvent]
    split
    · rfl
    · split_ifs
      · exact receive_sent messages s
      · rfl
  | marketMaker stepCount messages =>
    rw [processEvent]
    split
    · exact ⟨[], (List.append_nil _).symm, hnone⟩
    next update _ =>
      have hquoted := MarketMaker.onBookUpdate_quoted hcfg s.mm update stepCount
      dsimp only
      obtain ⟨ids, hids⟩ := flushCancels_sent
        { s with mm := (s.mm.onBookUpdate cfg update stepCount).2 }
      rw [submitOrders_eq, receive_sent, hids]
      split_ifs
      · exact ⟨_, List.append_assoc .., by simpa using hquoted⟩
      · exact ⟨_, rfl, by simpa using hnone⟩

end Simulator

end LiquidityArena

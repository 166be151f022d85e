import LiquidityArena.Simulation.BaseAgent

/-!
# The latency arbitrageur

A quote that is too far from the true price is picked off with a market order, which is
sized against the position limit. If there is none, a large inventory is sometimes reduced
with a passive limit order. The random draws of an update are its arguments.
-/

namespace LiquidityArena

/-- The parameters of a latency arbitrageur. Its position limit and its order sizes are positive;
the file that the limit may be set in is not checked for it. -/
structure LatencyArbConfig where
  threshold : Int := 5
  maxPosition : Int := 50
  tradeProb : ℚ := 9 / 10
  minQty : Int := 10
  maxQty : Int := 50
  maxPosition_pos : 0 < maxPosition := by decide
  minQty_pos : 1 ≤ minQty := by decide

/-- The results of `random()` in the three conditions, and of `integers()`, during one update. -/
structure ArbDraws where
  buy : ℚ
  sell : ℚ
  flatten : ℚ
  qty : Int
  deriving DecidableEq, Repr

/-- The agent and the true price signal. -/
structure LatencyArb where
  base : BaseAgent
  truePrice : Int := 0

namespace LatencyArb

/-- Called by the simulator each step with the true price signal. -/
def setTruePrice (a : LatencyArb) (price : Int) : LatencyArb := { a with truePrice := price }

section Signals

variable (cfg : LatencyArbConfig) (a : LatencyArb) (update : TcpClient.BookUpdateMsg)
  (draws : ArbDraws)

/-- The ask is too low relative to the true price, and the agent acts on it. -/
def PicksOffAsk : Prop :=
  a.truePrice - update.bestAsk > cfg.threshold ∧ a.base.stats.inventory < cfg.maxPosition ∧
    draws.buy < cfg.tradeProb

/-- The bid is too high relative to the true price, and the agent acts on it. -/
def PicksOffBid : Prop :=
  update.bestBid - a.truePrice > cfg.threshold ∧ a.base.stats.inventory > -cfg.maxPosition ∧
    draws.sell < cfg.tradeProb

/-- The inventory is large, and the agent tries to reduce it. -/
def Flattens : Prop :=
  |a.base.stats.inventory| > cfg.maxPosition / 2 ∧ draws.flatten < 3 / 10

instance : Decidable (PicksOffAsk cfg a update draws) := inferInstanceAs (Decidable (_ ∧ _))

instance : Decidable (PicksOffBid cfg a update draws) := inferInstanceAs (Decidable (_ ∧ _))

instance : Decidable (Flattens cfg a draws) := inferInstanceAs (Decidable (_ ∧ _))

end Signals

/-- Create an order with the next id, and track it. -/
def send (a : LatencyArb) (side : AgentSide) (type : AgentOrderType) (price quantity : Int) :
    List AgentOrder × LatencyArb :=
  let (id, base) := a.base.nextOrderId
  let order : AgentOrder := ⟨id, side, type, price, quantity⟩
  ([order], { a with base := base.trackOrder order })

/-- React to a book update; `none` when `integers()` is asked for a number in an empty range and
raises an error. -/
def onBookUpdate (a : LatencyArb) (cfg : LatencyArbConfig) (update : TcpClient.BookUpdateMsg)
    (draws : ArbDraws) : Option (List AgentOrder × LatencyArb) :=
  let inventory := a.base.stats.inventory
  if update.bestBid ≤ 0 ∨ update.bestAsk ≤ 0 then some ([], a)
  else if a.truePrice ≤ 0 then some ([], a)
  else
    let mid := (update.bestBid + update.bestAsk) / 2
    if PicksOffAsk cfg a update draws then
      if cfg.maxQty + 1 ≤ cfg.minQty then none
      else
        let qty := min draws.qty (cfg.maxPosition - inventory)
        if qty > 0 then some (a.send .bid .market 0 qty) else some ([], a)
    else if PicksOffBid cfg a update draws then
      if cfg.maxQty + 1 ≤ cfg.minQty then none
      else
        let qty := min draws.qty (cfg.maxPosition + inventory)
        if qty > 0 then some (a.send .ask .market 0 qty) else some ([], a)
    else if Flattens cfg a draws then
      if inventory > 0 then some (a.send .ask .limit (mid + 1) (min inventory cfg.maxQty))
      else some (a.send .bid .limit (mid - 1) (min (-inventory) cfg.maxQty))
    else some ([], a)

end LatencyArb

end LiquidityArena

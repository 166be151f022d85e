import LiquidityArena.Simulation.BaseAgent

/-!
# The other traders

A noise trader places random orders, an informed trader and a momentum trader send market
orders on a signal, and the human's orders are queued by the frontend until its turn. What
the random generators return is an argument. A turn is `none` when `integers()` is asked
for a number in an empty range and raises an error.
-/

namespace LiquidityArena

/-- Create an order with the next id, and track it. -/
def BaseAgent.submit (a : BaseAgent) (side : AgentSide) (type : AgentOrderType)
    (price quantity : Int) : List AgentOrder × BaseAgent :=
  let (id, a') := a.nextOrderId
  let order : AgentOrder := ⟨id, side, type, price, quantity⟩
  ([order], a'.trackOrder order)

/-- The parameters of a noise trader. -/
structure NoiseTraderConfig where
  orderProb : ℚ := 3 / 10
  spreadRange : Int := 20
  minQty : Int := 10
  maxQty : Int := 100
  marketOrderProb : ℚ := 5 / 100

/-- What the generator of a noise trader returns during one update. -/
structure NoiseDraws where
  act : ℚ
  side : AgentSide
  qty : Int
  market : ℚ
  offset : Int
  deriving DecidableEq, Repr

/-- A noise trader, which has no state of its own. -/
structure NoiseTrader where
  base : BaseAgent
  deriving DecidableEq, Repr

/-- At random, place a limit order near the mid price or a market order; `none` if a range to draw
from is empty. -/
def NoiseTrader.onBookUpdate (a : NoiseTrader) (cfg : NoiseTraderConfig)
    (update : TcpClient.BookUpdateMsg) (draws : NoiseDraws) :
    Option (List AgentOrder × NoiseTrader) :=
  if update.bestBid ≤ 0 ∨ update.bestAsk ≤ 0 then some ([], a)
  else
    let mid := (update.bestBid + update.bestAsk) / 2
    if cfg.orderProb < draws.act then some ([], a)
    else if cfg.maxQty + 1 ≤ cfg.minQty then none
    else if draws.market < cfg.marketOrderProb then
      some ((a.base.submit draws.side .market 0 draws.qty).map id .mk)
    else if cfg.spreadRange + 1 ≤ 1 then none
    else
      let price := match draws.side with
        | .bid => mid - draws.offset
        | .ask => mid + draws.offset
      some ((a.base.submit draws.side .limit price draws.qty).map id .mk)

/-- What the generator of a trader with a signal returns during one update. -/
structure SignalDraws where
  act : ℚ
  qty : Int
  deriving DecidableEq, Repr

/-- The parameters of an informed trader. -/
structure InformedTraderConfig where
  threshold : Int := 15
  aggression : ℚ := 8 / 10
  minQty : Int := 50
  maxQty : Int := 200

/-- An informed trader and the true price signal. -/
structure InformedTrader where
  base : BaseAgent
  truePrice : Int := 0
  deriving DecidableEq, Repr

namespace InformedTrader

/-- Called by the simulator each step with the hidden true price. -/
def setTruePrice (a : InformedTrader) (price : Int) : InformedTrader :=
  { a with truePrice := price }

/-- If the mid price is far enough from the true price, send a market order towards it at random;
`none` if the range of quantities is empty. -/
def onBookUpdate (a : InformedTrader) (cfg : InformedTraderConfig)
    (update : TcpClient.BookUpdateMsg) (draws : SignalDraws) :
    Option (List AgentOrder × InformedTrader) :=
  if update.bestBid ≤ 0 ∨ update.bestAsk ≤ 0 then some ([], a)
  else if a.truePrice ≤ 0 then some ([], a)
  else
    let mid := (update.bestBid + update.bestAsk) / 2
    let edge := a.truePrice - mid
    if |edge| < cfg.threshold then some ([], a)
    else if cfg.aggression < draws.act then some ([], a)
    else if cfg.maxQty + 1 ≤ cfg.minQty then none
    else
      let side : AgentSide := if edge > 0 then .bid else .ask
      let (orders, base) := a.base.submit side .market 0 draws.qty
      some (orders, { a with base := base })

end InformedTrader

/-- The parameters of a momentum trader. -/
structure MomentumTraderConfig where
  fastPeriod : Int := 10
  slowPeriod : Int := 50
  tradeProb : ℚ := 3 / 10
  minQty : Int := 20
  maxQty : Int := 80

namespace MomentumTraderConfig

/-- The weight of a new price in the fast average. -/
def fastAlpha (cfg : MomentumTraderConfig) : ℚ := 2 / (cfg.fastPeriod + 1)

/-- The weight of a new price in the slow average. -/
def slowAlpha (cfg : MomentumTraderConfig) : ℚ := 2 / (cfg.slowPeriod + 1)

end MomentumTraderConfig

/-- A momentum trader and its moving averages. -/
structure MomentumTrader where
  base : BaseAgent
  fastEma : ℚ := 0
  slowEma : ℚ := 0
  initialized : Bool := false
  deriving DecidableEq, Repr

namespace MomentumTrader

/-- Update the averages with a mid price, exactly; the first one initializes them. -/
def updateEmas (cfg : MomentumTraderConfig) (a : MomentumTrader) (mid : ℚ) : MomentumTrader :=
  if a.initialized then
    { a with
      fastEma := cfg.fastAlpha * mid + (1 - cfg.fastAlpha) * a.fastEma
      slowEma := cfg.slowAlpha * mid + (1 - cfg.slowAlpha) * a.slowEma }
  else { a with fastEma := mid, slowEma := mid, initialized := true }

/-- Send a market order. -/
def send (a : MomentumTrader) (side : AgentSide) (quantity : Int) :
    List AgentOrder × MomentumTrader :=
  let (orders, base) := a.base.submit side .market 0 quantity
  (orders, { a with base := base })

/-- Update the averages, and at random send a market order in the direction in which the fast one is
ahead of the slow one; `none` if the range of quantities is empty. -/
def onBookUpdate (a : MomentumTrader) (cfg : MomentumTraderConfig)
    (update : TcpClient.BookUpdateMsg) (draws : SignalDraws) :
    Option (List AgentOrder × MomentumTrader) :=
  if update.bestBid ≤ 0 ∨ update.bestAsk ≤ 0 then some ([], a)
  else
    let a' := a.updateEmas cfg ((update.bestBid + update.bestAsk) / 2 : Int)
    if a.initialized = false then some ([], a')
    else if cfg.tradeProb < draws.act then some ([], a')
    else if cfg.maxQty + 1 ≤ cfg.minQty then none
    else if a'.slowEma + 1 < a'.fastEma then some (a'.send .bid draws.qty)
    else if a'.fastEma < a'.slowEma - 1 then some (a'.send .ask draws.qty)
    else some ([], a')

end MomentumTrader

/-- An agent fully controlled by the frontend. -/
structure HumanAgent where
  base : BaseAgent
  pendingOrders : List AgentOrder := []
  pendingCancels : List Int := []
  lastBook : Option TcpClient.BookUpdateMsg := none

namespace HumanAgent

/-- Submit whatever orders were queued by the UI and track the latest book. -/
def onBookUpdate (a : HumanAgent) (update : TcpClient.BookUpdateMsg) :
    List AgentOrder × HumanAgent :=
  (a.pendingOrders, { a with
    base := a.pendingOrders.foldl BaseAgent.trackOrder a.base
    pendingOrders := []
    lastBook := some update })

/-- Queue an order with the next id. -/
def queue (a : HumanAgent) (side : AgentSide) (type : AgentOrderType) (price qty : Int) :
    HumanAgent :=
  let (id, base) := a.base.nextOrderId
  { a with
    base := base
    pendingOrders := a.pendingOrders ++ [⟨id, side, type, price, qty⟩] }

/-- Queue a market order. -/
def placeMarketOrder (a : HumanAgent) (side : AgentSide) (qty : Int) : HumanAgent :=
  a.queue side .market 0 qty

/-- Place a limit order at the best price and an offset. -/
def placeLimitOrder (a : HumanAgent) (side : AgentSide) (offset qty : Int) : HumanAgent :=
  match a.lastBook with
  | none => a
  | some book =>
    let price := match side with
      | .bid => book.bestBid - offset
      | .ask => book.bestAsk + offset
    if price ≤ 0 then a else a.queue side .limit price qty

/-- Cancel all active orders; those still queued are not among them. -/
def cancelAllQuotes (a : HumanAgent) : HumanAgent :=
  let (ids, base) := a.base.cancelAll
  { a with base := base, pendingCancels := a.pendingCancels ++ ids }

end HumanAgent

end LiquidityArena

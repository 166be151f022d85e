import LiquidityArena.Simulation.TcpClient
import Mathlib.Data.Rat.Defs

/-!
# Trading agents

What all agents share: the numbers of their orders, the orders they consider active and
the statistics they keep from the fills they are told about. Money is exact: prices are
integer ticks and the tick size is a rational.
-/

namespace LiquidityArena

/-- The side of an agent's order: 0 is BID, 1 is ASK. -/
inductive AgentSide where
  | bid
  | ask
  deriving DecidableEq, Repr

/-- The type of an agent's order: 0 is LIMIT, 1 is MARKET. -/
inductive AgentOrderType where
  | limit
  | market
  deriving DecidableEq, Repr

/-- The number of a side in a message. -/
def AgentSide.code : AgentSide → Int
  | .bid => 0
  | .ask => 1

/-- The number of an order type in a message. -/
def AgentOrderType.code : AgentOrderType → Int
  | .limit => 0
  | .market => 1

/-- Order that an agent wants to send. -/
structure AgentOrder where
  orderId : Int
  side : AgentSide
  orderType : AgentOrderType
  price : Int
  quantity : Int
  deriving DecidableEq, Repr

/-- Running statistics for an agent. -/
structure AgentStats where
  totalPnl : ℚ := 0
  realizedPnl : ℚ := 0
  unrealizedPnl : ℚ := 0
  inventory : Int := 0
  totalFills : Nat := 0
  totalOrdersSent : Nat := 0
  totalVolume : Int := 0
  deriving DecidableEq, Repr

/-- A trading agent. The active orders are a dictionary keyed by order id, in the order in
which the keys were inserted. -/
structure BaseAgent where
  tickSize : ℚ := 1 / 100
  stats : AgentStats := {}
  nextOrderIdValue : Int := 1
  activeOrders : List AgentOrder := []
  fillPrices : List (Int × Int) := []
  midPrice : Int := 0
  deriving DecidableEq, Repr

namespace BaseAgent

/-- The size of the block of ids an agent starts at. -/
def idBlock : Int := 1000000

/-- A new agent; the class-level counter gives its block of ids and is advanced. -/
def create (agentCounter : Nat) (tickSize : ℚ) : BaseAgent × Nat :=
  ({ tickSize := tickSize, nextOrderIdValue := agentCounter * idBlock + 1 }, agentCounter + 1)

/-- Generate an order id. -/
def nextOrderId (a : BaseAgent) : Int × BaseAgent :=
  (a.nextOrderIdValue, { a with
    nextOrderIdValue := a.nextOrderIdValue + 1
    stats := { a.stats with totalOrdersSent := a.stats.totalOrdersSent + 1 } })

/-- Register an active order; a key that is there keeps its place. -/
def trackOrder (a : BaseAgent) (order : AgentOrder) : BaseAgent :=
  { a with activeOrders :=
      if a.activeOrders.any (·.orderId = order.orderId) then
        a.activeOrders.map fun o => if o.orderId = order.orderId then order else o
      else a.activeOrders ++ [order] }

/-- An order with a new id is the last of the active ones. -/
theorem trackOrder_new (a : BaseAgent) (order : AgentOrder)
    (h : ∀ o ∈ a.activeOrders, o.orderId ≠ order.orderId) :
    (a.trackOrder order).activeOrders = a.activeOrders ++ [order] := by
  have hnew : a.activeOrders.any (·.orderId = order.orderId) = false := by
    rw [List.any_eq_false]
    exact fun o ho heq => h o ho (of_decide_eq_true heq)
  rw [BaseAgent.trackOrder, hnew]
  rfl

/-- Return the ids of all active orders to cancel. -/
def cancelAll (a : BaseAgent) : List Int × BaseAgent :=
  (a.activeOrders.map (·.orderId), { a with activeOrders := [] })

/-- The first active order that is one of the legs of a fill. -/
def matching (a : BaseAgent) (fill : TcpClient.FillMsg) : Option AgentOrder :=
  a.activeOrders.find? fun o => o.orderId = fill.makerId ∨ o.orderId = fill.takerId

/-- The quantity of a fill with the sign of an order's side. -/
def signed (side : AgentSide) (quantity : Int) : Int :=
  match side with
  | .bid => quantity
  | .ask => -quantity

/-- Handle a fill notification. -/
def onFill (a : BaseAgent) (fill : TcpClient.FillMsg) : BaseAgent :=
  match a.matching fill with
  | none => a
  | some order =>
    let qty := signed order.side fill.quantity
    { a with
      stats := { a.stats with
        inventory := a.stats.inventory + qty
        totalFills := a.stats.totalFills + 1
        totalVolume := a.stats.totalVolume + |fill.quantity|
        realizedPnl := a.stats.realizedPnl + (-fill.price * qty : Int) * a.tickSize }
      fillPrices := a.fillPrices ++ [(fill.price, qty)]
      activeOrders :=
        if order.quantity ≤ fill.quantity then
          a.activeOrders.filter (·.orderId ≠ order.orderId)
        else a.activeOrders }

/-- Update unrealized PnL based on the current mid price. -/
def updateUnrealizedPnl (a : BaseAgent) (midPrice : Int) : BaseAgent :=
  let unrealized := a.stats.inventory * midPrice * a.tickSize
  { a with
    midPrice := midPrice
    stats := { a.stats with
      unrealizedPnl := unrealized
      totalPnl := a.stats.realizedPnl + unrealized } }

end BaseAgent

end LiquidityArena

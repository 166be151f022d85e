import Mathlib.Data.List.AList
import LiquidityArena.Engine.PriceLevel

/-!
# The limit order book

Two hash maps from prices to levels, a map from order ids to pool slots and the
two cached best prices. The hash maps are association lists without repeated
keys; the order in which a loop visits their entries is not part of the state
but an argument, `HashOrder`, of every operation that runs such a loop.
-/

namespace LiquidityArena

/-- Maximum orders the pool can hold simultaneously. -/
def maxOrders : Nat := 1000000

/-- The levels of one side of the book, by price. -/
abbrev LevelMap := AList fun _ : Int => PriceLevel

/-- An order in which a hash map may be iterated: any arrangement of its entries. -/
structure HashOrder where
  arrange : List (Σ _ : Int, PriceLevel) → List (Σ _ : Int, PriceLevel)
  perm : ∀ entries, (arrange entries).Perm entries

/-- The iteration order that visits the most recently written entry first. -/
def HashOrder.recent : HashOrder := ⟨id, fun _ => List.Perm.refl _⟩

/-- A depth level for external queries. -/
structure DepthLevel where
  price : Int
  quantity : Int
  deriving DecidableEq, Repr

/-- The limit order book; `true` selects the bid side throughout. -/
structure OrderBook where
  pool : ObjectPool Order maxOrders
  bids : LevelMap
  asks : LevelMap
  orderMap : AList fun _ : OrderId => Ptr
  bestBid : Int
  bestAsk : Int

namespace OrderBook

/-- The empty book. -/
def init : OrderBook where
  pool := .init
  bids := ∅
  asks := ∅
  orderMap := ∅
  bestBid := invalidPrice
  bestAsk := invalidPrice

/-- The map selected by `(side == Side::BID) ? bids_ : asks_`. -/
def levels (b : OrderBook) (isBid : Bool) : LevelMap := if isBid then b.bids else b.asks

/-- Replace the map of one side. -/
def setLevels (b : OrderBook) (isBid : Bool) (levels : LevelMap) : OrderBook :=
  if isBid then { b with bids := levels } else { b with asks := levels }

/-- The cached best price of one side. -/
def best (b : OrderBook) (isBid : Bool) : Int := if isBid then b.bestBid else b.bestAsk

/-- Replace the cached best price of one side. -/
def setBest (b : OrderBook) (isBid : Bool) (price : Int) : OrderBook :=
  if isBid then { b with bestBid := price } else { b with bestAsk := price }

/-- The price `p` is strictly better than `q` on the given side. -/
def Better : Bool → Int → Int → Prop
  | true, p, q => p > q
  | false, p, q => p < q

instance : ∀ isBid p q, Decidable (Better isBid p q)
  | true, p, q => inferInstanceAs (Decidable (p > q))
  | false, p, q => inferInstanceAs (Decidable (p < q))

/-- The best-price update that follows an insertion. -/
def raiseBest (b : OrderBook) (isBid : Bool) (price : Int) : OrderBook :=
  if b.best isBid = invalidPrice ∨ Better isBid price (b.best isBid) then b.setBest isBid price
  else b

/-- The common body of `add_order` and `add_iceberg_order`: enter the order `o`
with `shown` as the quantity counted into its level. -/
def placeOrder (b : OrderBook) (o : Order) (shown : Int) : Option Ptr × OrderBook :=
  if (b.orderMap.lookup o.id).isSome then (none, b)
  else
    match b.pool.allocate with
    | (none, _) => (none, b)
    | (some p, fresh) =>
      let isBid := o.side.isBid
      let level := ((b.levels isBid).lookup o.price).getD {}
      let pushed := level.pushBack (fresh.set p { o with quantity := shown }) p
      let pool := pushed.2.modify p fun x => { x with quantity := o.quantity }
      let entered := { b with pool := pool, orderMap := b.orderMap.insert o.id p }
      let placed := entered.setLevels isBid ((b.levels isBid).insert o.price pushed.1)
      (some p, placed.raiseBest isBid o.price)

/-- The fields `add_order` writes into a fresh order. -/
def limitOrder (id : OrderId) (side : Side) (price quantity : Int) (ts : Timestamp) : Order :=
  { id, side, price, quantity, timestamp := ts, type := .limit, displayQty := 0, hiddenQty := 0 }

/-- The fields `add_iceberg_order` writes into a fresh order. -/
def icebergOrder (id : OrderId) (side : Side) (price totalQty displayQty : Int) (ts : Timestamp) :
    Order :=
  { id, side, price, quantity := totalQty, timestamp := ts, type := .iceberg, displayQty,
    hiddenQty := totalQty - displayQty }

/-- Add a limit order to the book; null for a duplicate id or an exhausted pool. -/
def addOrder (b : OrderBook) (id : OrderId) (side : Side) (price quantity : Int)
    (ts : Timestamp) : Option Ptr × OrderBook :=
  b.placeOrder (limitOrder id side price quantity ts) quantity

/-- Add an iceberg order, of which only the display portion is counted as depth. -/
def addIcebergOrder (b : OrderBook) (id : OrderId) (side : Side) (price totalQty displayQty : Int)
    (ts : Timestamp) : Option Ptr × OrderBook :=
  b.placeOrder (icebergOrder id side price totalQty displayQty ts) displayQty

/-- One entry of the scan behind `update_best_bid` and `update_best_ask`. -/
def scanStep (isBid : Bool) (best : Int) (entry : Σ _ : Int, PriceLevel) : Int :=
  if entry.2.empty = false ∧ (best = invalidPrice ∨ Better isBid entry.1 best) then entry.1
  else best

/-- The scan over entries in iteration order. -/
def scanBest (isBid : Bool) (entries : List (Σ _ : Int, PriceLevel)) : Int :=
  entries.foldl (scanStep isBid) invalidPrice

/-- The common body of `update_best_bid` and `update_best_ask`. -/
def updateBest (b : OrderBook) (ord : HashOrder) (isBid : Bool) : OrderBook :=
  b.setBest isBid (scanBest isBid (ord.arrange (b.levels isBid).entries))

/-- Recalculate the best bid after removing from the bid side. -/
def updateBestBid (b : OrderBook) (ord : HashOrder) : OrderBook := b.updateBest ord true

/-- Recalculate the best ask after removing from the ask side. -/
def updateBestAsk (b : OrderBook) (ord : HashOrder) : OrderBook := b.updateBest ord false

/-- Unlink an order from its price level, dropping the level when it becomes empty. -/
def removeOrderFromLevel (b : OrderBook) (ord : HashOrder) (p : Ptr) : OrderBook :=
  let o := b.pool.get p
  let isBid := o.side.isBid
  match (b.levels isBid).lookup o.price with
  | none => b
  | some level =>
    let removed := level.remove b.pool p
    let unlinked := { b with pool := removed.2 }
    if removed.1.empty then
      let erased := unlinked.setLevels isBid ((b.levels isBid).erase o.price)
      if o.side = .bid ∧ o.price = b.bestBid then erased.updateBestBid ord
      else if o.side = .ask ∧ o.price = b.bestAsk then erased.updateBestAsk ord
      else erased
    else unlinked.setLevels isBid ((b.levels isBid).insert o.price removed.1)

/-- Forget the order's id and return its slot to the pool. -/
def releaseOrder (b : OrderBook) (p : Ptr) : OrderBook :=
  { b with orderMap := b.orderMap.erase (b.pool.get p).id, pool := b.pool.deallocate p }

/-- Look up an order by id. -/
def getOrder (b : OrderBook) (id : OrderId) : Option Ptr := b.orderMap.lookup id

/-- Unlink the order found under an id, erase the id and return the slot. -/
def discard (b : OrderBook) (ord : HashOrder) (id : OrderId) (p : Ptr) : OrderBook :=
  let unlinked := b.removeOrderFromLevel ord p
  { unlinked with
    orderMap := unlinked.orderMap.erase id
    pool := unlinked.pool.deallocate p }

/-- Cancel and remove an order by id. -/
def cancelOrder (b : OrderBook) (ord : HashOrder) (id : OrderId) : Bool × OrderBook :=
  match b.getOrder id with
  | none => (false, b)
  | some p => (true, b.discard ord id p)

/-- Apply an update to the level of a side and price, if it exists. -/
def adjustLevel (b : OrderBook) (isBid : Bool) (price : Int) (f : PriceLevel → PriceLevel) :
    OrderBook :=
  match (b.levels isBid).lookup price with
  | none => b
  | some level => b.setLevels isBid ((b.levels isBid).insert price (f level))

/-- Modify an order's price or quantity: in place for a smaller quantity at the
same price, by removal and re-entry for a new price. -/
def modifyOrder (b : OrderBook) (ord : HashOrder) (id : OrderId) (newPrice newQty : Int) :
    Bool × OrderBook :=
  match b.getOrder id with
  | none => (false, b)
  | some p =>
    let o := b.pool.get p
    if newQty ≤ 0 then (false, b)
    else if newQty > o.remaining then (false, b)
    else if newPrice = o.price then
      if newQty < o.remaining then
        match (b.levels o.side.isBid).lookup o.price with
        | none => (true, b)
        | some level =>
          let modified := level.modifyQtyDown b.pool p newQty
          (true, { b with pool := modified.2 }.setLevels o.side.isBid
            ((b.levels o.side.isBid).insert o.price modified.1))
      else (true, b)
    else
      let removed := b.discard ord id p
      if o.type = .iceberg then
        (true, (removed.addIcebergOrder id o.side newPrice newQty o.displayQty o.timestamp).2)
      else (true, (removed.addOrder id o.side newPrice newQty o.timestamp).2)

/-- The front-of-queue order at the cached best price of a side. -/
def bestOrder (b : OrderBook) (isBid : Bool) : Option Ptr :=
  if b.best isBid = invalidPrice then none
  else ((b.levels isBid).lookup (b.best isBid)).bind PriceLevel.front

/-- Replenish an iceberg's display slice from its hidden reserve, at the back of the queue. -/
def replenishIceberg (b : OrderBook) (p : Ptr) : Bool × OrderBook :=
  let o := b.pool.get p
  if o.hasHiddenQty = false then (false, b)
  else
    let replenish := min o.displayQty o.hiddenQty
    let hidden := o.hiddenQty - replenish
    let taken := b.pool.modify p fun x => { x with hiddenQty := hidden }
    match (b.levels o.side.isBid).lookup o.price with
    | none => (false, { b with pool := taken })
    | some level =>
      let removed := level.remove taken p
      let filled := o.quantity - hidden - replenish
      let quantity := filled + replenish + hidden
      let sliced := removed.2.modify p fun x => { x with quantity := replenish, filledQuantity := 0 }
      let pushed := removed.1.pushBack sliced p
      let pool := pushed.2.modify p fun x => { x with quantity := quantity, filledQuantity := filled }
      (true, { b with pool := pool }.setLevels o.side.isBid
        ((b.levels o.side.isBid).insert o.price pushed.1))

/-- The best `n` non-empty levels of a side with their cached depth, best first. -/
def getDepth (b : OrderBook) (ord : HashOrder) (isBid : Bool) (n : Nat) : List DepthLevel :=
  let visible := (ord.arrange (b.levels isBid).entries).filter fun entry => !entry.2.empty
  let depth := visible.map fun entry => (⟨entry.1, entry.2.totalQuantity⟩ : DepthLevel)
  (depth.mergeSort fun x y => decide (¬ Better isBid y.price x.price)).take n

/-- The number of orders the id map knows. -/
def totalOrders (b : OrderBook) : Nat := b.orderMap.entries.length

end OrderBook

end LiquidityArena

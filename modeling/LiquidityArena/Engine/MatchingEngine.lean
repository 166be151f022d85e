import LiquidityArena.Engine.OrderBook

/-!
# The matching engine

Each call is a function of the engine state. The `while` loop of `match_order`
is iterated with explicit fuel and yields `none` only when the fuel runs out, so
a call that yields a state has left its loop through one of the exits of the
source. The fill callback is the log `fills` of the messages it received.
-/

namespace LiquidityArena

/-- Fill notification. -/
structure FillMsg where
  makerId : OrderId
  takerId : OrderId
  price : Int
  quantity : Int
  makerFee : Int
  takerFee : Int
  deriving DecidableEq, Repr

/-- Maximum number of levels a side of a snapshot publishes. -/
def maxDepthLevels : Nat := 10

/-- Snapshot of the best levels of both sides; unused entries of its arrays are zero. -/
structure BookUpdateMsg where
  bestBid : Int
  bestAsk : Int
  numBidLevels : Nat
  numAskLevels : Nat
  bidPrices : List Int
  bidQuantities : List Int
  askPrices : List Int
  askQuantities : List Int
  deriving DecidableEq, Repr

/-- The book, the fee schedule, the emitted fills and the statistics. -/
structure MatchingEngine where
  book : OrderBook
  fees : FeeSchedule := {}
  fills : List FillMsg := []
  totalFills : Nat := 0
  totalOrders : Nat := 0
  totalCancels : Nat := 0
  totalModifies : Nat := 0
  totalMakerRebates : Int := 0
  totalTakerFees : Int := 0

namespace MatchingEngine

/-- An engine over the empty book. -/
def init (fees : FeeSchedule) : MatchingEngine := { book := .init, fees }

/-- The message of a fill of `m`, at its price. -/
def fillMsg (fees : FeeSchedule) (m : Order) (takerId : OrderId) (fillQty : Int) : FillMsg where
  makerId := m.id
  takerId := takerId
  price := m.price
  quantity := fillQty
  makerFee := toInt64 (-fees.makerRebate m.price fillQty)
  takerFee := fees.takerFee m.price fillQty

/-- The statistics of a fill and its delivery to the callback. -/
def record (e : MatchingEngine) (fill : FillMsg) : MatchingEngine :=
  { e with
    totalFills := e.totalFills + 1
    totalMakerRebates := toInt64 (e.totalMakerRebates + toInt64 (-fill.makerFee))
    totalTakerFees := toInt64 (e.totalTakerFees + fill.takerFee)
    fills := e.fills ++ [fill] }

/-- Execute a single fill between maker and taker, at the maker's price. -/
def executeFill (e : MatchingEngine) (maker taker : Ptr) (fillQty : Int) : MatchingEngine :=
  let m := e.book.pool.get maker
  let t := e.book.pool.get taker
  let pool := (e.book.pool.modify maker (·.fill fillQty)).modify taker (·.fill fillQty)
  let book := ({ e.book with pool }.adjustLevel m.side.isBid m.price
    (·.reduceQuantity fillQty)).adjustLevel t.side.isBid t.price (·.reduceQuantity fillQty)
  { e with book }.record (fillMsg e.fees m t.id fillQty)

/-- The quantity of a resting order offered to one pass of the matching loop. -/
def makerAvailable (m : Order) : Int :=
  if m.type = .iceberg ∧ m.displayQty > 0 then min m.remaining m.displayQty else m.remaining

/-- The price check of the loop: limit and iceberg orders do not trade through their price. -/
def Incompatible (i : Order) (oppositeBest : Int) : Prop :=
  (i.type = .limit ∨ i.type = .iceberg) ∧
    (i.side.isBid = true ∧ i.price < oppositeBest ∨ i.side.isBid = false ∧ i.price > oppositeBest)

instance (i : Order) (oppositeBest : Int) : Decidable (Incompatible i oppositeBest) :=
  inferInstanceAs (Decidable (_ ∧ _))

/-- What follows a fill: a filled maker leaves the book, an iceberg whose display
is tested as consumed is replenished. -/
def settleMaker (e : MatchingEngine) (ord : HashOrder) (maker : Ptr) : MatchingEngine :=
  let m := e.book.pool.get maker
  if m.isFilled then
    { e with book := (e.book.removeOrderFromLevel ord maker).releaseOrder maker }
  else if m.type = .iceberg then
    let displayRemaining := m.displayQty - m.filledQuantity.tmod m.displayQty
    if displayRemaining ≤ 0 ∧ m.hasHiddenQty then
      { e with book := (e.book.replenishIceberg maker).2 }
    else e
  else e

/-- One pass of the matching loop; `none` is an exit of the loop. -/
def matchStep (e : MatchingEngine) (ord : HashOrder) (incoming : Ptr) : Option MatchingEngine :=
  let i := e.book.pool.get incoming
  let opposite := !i.side.isBid
  if i.remaining ≤ 0 then none
  else if e.book.best opposite = invalidPrice then none
  else if Incompatible i (e.book.best opposite) then none
  else
    match e.book.bestOrder opposite with
    | none => none
    | some maker =>
      let fillQty := min i.remaining (makerAvailable (e.book.pool.get maker))
      some ((e.executeFill maker incoming fillQty).settleMaker ord maker)

/-- Iterate the loop body; `none` when the fuel runs out before an exit is taken. -/
def matchLoop (ord : HashOrder) (incoming : Ptr) : Nat → MatchingEngine → Option MatchingEngine
  | 0, _ => none
  | fuel + 1, e =>
    match e.matchStep ord incoming with
    | none => some e
    | some e' => matchLoop ord incoming fuel e'

/-- Match an incoming order against the opposite side of the book. -/
def matchOrder (e : MatchingEngine) (ord : HashOrder) (incoming : Ptr) : Option MatchingEngine :=
  matchLoop ord incoming
    (e.book.totalOrders + (e.book.pool.get incoming).remaining.toNat + 1) e

/-- The spread test that decides whether a new resting order is matched at all. -/
def Crosses (b : OrderBook) (side : Side) (price : Int) : Prop :=
  side = .bid ∧ b.bestAsk ≠ invalidPrice ∧ price ≥ b.bestAsk ∨
    side = .ask ∧ b.bestBid ≠ invalidPrice ∧ price ≤ b.bestBid

instance (b : OrderBook) (side : Side) (price : Int) : Decidable (Crosses b side price) :=
  inferInstanceAs (Decidable (_ ∨ _))

/-- The parameter checks at the head of `process_new_order`. -/
def ValidParams (type : OrderType) (price quantity displayQty : Int) : Prop :=
  ¬ quantity ≤ 0 ∧ ¬ (type = .limit ∧ price ≤ 0) ∧
    ¬ (type = .iceberg ∧ (price ≤ 0 ∨ displayQty ≤ 0))

instance (type : OrderType) (price quantity displayQty : Int) :
    Decidable (ValidParams type price quantity displayQty) :=
  inferInstanceAs (Decidable (_ ∧ _))

/-- The market branch of `process_new_order`: a temporary order at the worst price,
of which an unfilled remainder is removed. -/
def processMarket (e : MatchingEngine) (ord : HashOrder) (id : OrderId) (side : Side)
    (quantity : Int) (ts : Timestamp) : Option (Option Ptr × MatchingEngine) :=
  let marketPrice := if side = .bid then maxPrice else minPrice
  match e.book.addOrder id side marketPrice quantity ts with
  | (none, _) => some (none, e)
  | (some p, added) => do
    let typed := { added with pool := added.pool.modify p fun x => { x with type := .market } }
    let matched ← { e with book := typed }.matchOrder ord p
    if (matched.book.pool.get p).remaining > 0 then
      some (none, { matched with
        book := (matched.book.removeOrderFromLevel ord p).releaseOrder p })
    else some (none, matched)

/-- The branch of `process_new_order` for orders that may rest. -/
def processResting (e : MatchingEngine) (ord : HashOrder) (id : OrderId) (side : Side)
    (type : OrderType) (price quantity : Int) (ts : Timestamp) (displayQty : Int) :
    Option (Option Ptr × MatchingEngine) :=
  let added :=
    if type = .iceberg then e.book.addIcebergOrder id side price quantity displayQty ts
    else e.book.addOrder id side price quantity ts
  match added with
  | (none, _) => some (none, e)
  | (some p, book) =>
    if Crosses book side price then do
      let matched ← { e with book }.matchOrder ord p
      if (matched.book.pool.get p).remaining ≤ 0 then
        some (none, { matched with
          book := (matched.book.removeOrderFromLevel ord p).releaseOrder p })
      else some (some p, matched)
    else some (some p, { e with book })

/-- Process a new order; the result is the resting order, if any. -/
def processNewOrder (e : MatchingEngine) (ord : HashOrder) (id : OrderId) (side : Side)
    (type : OrderType) (price quantity : Int) (ts : Timestamp) (displayQty : Int) :
    Option (Option Ptr × MatchingEngine) :=
  let counted := { e with totalOrders := e.totalOrders + 1 }
  if ValidParams type price quantity displayQty then
    if type = .market then counted.processMarket ord id side quantity ts
    else counted.processResting ord id side type price quantity ts displayQty
  else some (none, counted)

/-- Cancel an existing order by id. -/
def processCancel (e : MatchingEngine) (ord : HashOrder) (id : OrderId) : Bool × MatchingEngine :=
  let (success, book) := e.book.cancelOrder ord id
  (success, { e with book, totalCancels := e.totalCancels + if success then 1 else 0 })

/-- Modify an existing order's price or quantity. -/
def processModify (e : MatchingEngine) (ord : HashOrder) (id : OrderId) (newPrice newQty : Int) :
    Bool × MatchingEngine :=
  let (success, book) := e.book.modifyOrder ord id newPrice newQty
  (success, { e with book, totalModifies := e.totalModifies + if success then 1 else 0 })

/-- Whether the engine has a resting order with the given id. -/
def hasOrder (e : MatchingEngine) (id : OrderId) : Bool := (e.book.getOrder id).isSome

/-- Build a snapshot of the current book. -/
def getBookSnapshot (e : MatchingEngine) (ord : HashOrder) : BookUpdateMsg :=
  let bidDepth := e.book.getDepth ord true maxDepthLevels
  let askDepth := e.book.getDepth ord false maxDepthLevels
  { bestBid := e.book.bestBid
    bestAsk := e.book.bestAsk
    numBidLevels := bidDepth.length
    numAskLevels := askDepth.length
    bidPrices := (bidDepth.map (·.price)).rightpad maxDepthLevels 0
    bidQuantities := (bidDepth.map (·.quantity)).rightpad maxDepthLevels 0
    askPrices := (askDepth.map (·.price)).rightpad maxDepthLevels 0
    askQuantities := (askDepth.map (·.quantity)).rightpad maxDepthLevels 0 }

end MatchingEngine

/-- The arguments of `process_new_order`. -/
structure NewOrder where
  id : OrderId
  side : Side
  type : OrderType
  price : Int
  quantity : Int
  ts : Timestamp := 0
  displayQty : Int := 0
  deriving DecidableEq, Repr

/-- A call of the engine's public interface. -/
inductive Call where
  | newOrder (n : NewOrder)
  | cancel (id : OrderId)
  | modify (id : OrderId) (newPrice newQty : Int)
  deriving DecidableEq, Repr

/-- The engine after one call, if the call returns. -/
def MatchingEngine.perform (e : MatchingEngine) (ord : HashOrder) : Call → Option MatchingEngine
  | .newOrder n =>
    (e.processNewOrder ord n.id n.side n.type n.price n.quantity n.ts n.displayQty).map (·.2)
  | .cancel id => some (e.processCancel ord id).2
  | .modify id newPrice newQty => some (e.processModify ord id newPrice newQty).2

/-- The engine after a sequence of calls, each under its own iteration order. -/
def MatchingEngine.run (e : MatchingEngine) : List (HashOrder × Call) → Option MatchingEngine
  | [] => some e
  | (ord, call) :: calls => (e.perform ord call).bind (·.run calls)

end LiquidityArena

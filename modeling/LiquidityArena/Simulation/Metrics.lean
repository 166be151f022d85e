import LiquidityArena.Simulation.BaseAgent
import Mathlib.Data.List.GetD

/-!
# The metrics engine

It logs fills and, after each change, the inventory and the mid price. The decomposition of
the profit is computed from these logs alone. Prices are integer ticks and all arithmetic is
exact.
-/

namespace LiquidityArena

/-- Record of a single fill for metrics computation. -/
structure FillRecord where
  price : Int
  quantity : Int
  side : AgentSide
  isMaker : Bool
  midAtFill : Int
  midAfterFill : Option Int := none
  makerFee : ℚ := 0
  takerFee : ℚ := 0
  deriving DecidableEq, Repr

/-- The logs and counters of the engine. -/
structure MetricsEngine where
  fills : List FillRecord := []
  inventoryHistory : List Int := []
  pnlHistory : List ℚ := []
  midHistory : List Int := []
  totalFills : Nat := 0
  deriving DecidableEq, Repr

/-- The components of the profit, with the fees of both kinds and their sum. -/
structure PnlDecomposition where
  spreadCapture : ℚ
  inventoryPnl : ℚ
  adverseSelection : ℚ
  makerFees : ℚ
  takerFees : ℚ
  netFees : ℚ
  deriving DecidableEq, Repr

/-- The sums of the loop over the fills. -/
structure FillSums where
  spreadCapture : ℚ := 0
  adverseSel : ℚ := 0
  makerFees : ℚ := 0
  takerFees : ℚ := 0
  deriving DecidableEq, Repr

namespace MetricsEngine

/-- Record a fill event. -/
def recordFill (m : MetricsEngine) (fill : FillRecord) : MetricsEngine :=
  { m with fills := m.fills ++ [fill], totalFills := m.totalFills + 1 }

/-- Record periodic state for time-series metrics. -/
def recordState (m : MetricsEngine) (pnl : ℚ) (inventory mid : Int) : MetricsEngine :=
  { m with
    pnlHistory := m.pnlHistory ++ [pnl]
    inventoryHistory := m.inventoryHistory ++ [inventory]
    midHistory := m.midHistory ++ [mid] }

/-- One pass of the loop over the fills. -/
def addFill (sums : FillSums) (fill : FillRecord) : FillSums :=
  if fill.isMaker then
    { spreadCapture := sums.spreadCapture +
        match fill.side with
        | .bid => (fill.midAtFill - fill.price : ℚ)
        | .ask => (fill.price - fill.midAtFill : ℚ)
      adverseSel :=
        match fill.midAfterFill with
        | none => sums.adverseSel
        | some mid => sums.adverseSel +
          match fill.side with
          | .bid => (fill.midAtFill - mid : ℚ)
          | .ask => (mid - fill.midAtFill : ℚ)
      makerFees := sums.makerFees + fill.makerFee
      takerFees := sums.takerFees + 0 }
  else { sums with takerFees := sums.takerFees + fill.takerFee }

/-- The sums over all fills. -/
def fillSums (m : MetricsEngine) : FillSums := m.fills.foldl addFill {}

/-- One pass of the loop over the time series. -/
def addChange (mids inventories : List Int) (pnl : ℚ) (i : Nat) : ℚ :=
  let midChange := mids.getD i 0 - mids.getD (i - 1) 0
  pnl + (inventories.getD (i - 1) 0 * midChange : Int)

/-- The inventory before each change of the mid price times the change. -/
def inventoryPnl (mids inventories : List Int) : ℚ :=
  if mids.length ≥ 2 ∧ inventories.length ≥ 2 then
    (List.range' 1 (min mids.length inventories.length - 1)).foldl (addChange mids inventories) 0
  else 0

/-- Decompose the profit into its components. -/
def pnlDecomposition (m : MetricsEngine) : PnlDecomposition where
  spreadCapture := m.fillSums.spreadCapture
  inventoryPnl := inventoryPnl m.midHistory m.inventoryHistory
  adverseSelection := m.fillSums.adverseSel
  makerFees := m.fillSums.makerFees
  takerFees := m.fillSums.takerFees
  netFees := m.fillSums.makerFees + m.fillSums.takerFees

variable {mids inventories : List Int}

/-- The guard only skips a loop without a pass. -/
theorem inventoryPnl_eq (h : mids.length = inventories.length) :
    inventoryPnl mids inventories =
      (List.range' 1 (mids.length - 1)).foldl (addChange mids inventories) 0 := by
  unfold inventoryPnl
  rw [← h, min_self]
  split_ifs with hlen
  · rfl
  · rw [show mids.length - 1 = 0 by omega]
    rfl

/-- Entries keep their places when others follow. -/
theorem getD_concat_concat {xs : List Int} {i : Nat} (hi : i ≤ xs.length) (a b : Int) :
    (xs ++ [a] ++ [b]).getD i 0 = (xs ++ [a]).getD i 0 := by
  apply List.getD_append
  rw [List.length_append, List.length_singleton]
  omega

/-- A further entry adds the inventory of the last one times the change of the mid price. -/
theorem inventoryPnl_concat (h : mids.length = inventories.length)
    (mid inventory mid' inventory' : Int) :
    inventoryPnl (mids ++ [mid] ++ [mid']) (inventories ++ [inventory] ++ [inventory']) =
      inventoryPnl (mids ++ [mid]) (inventories ++ [inventory]) +
        (inventory * (mid' - mid) : Int) := by
  have hearlier : ∀ pnl, ∀ i ∈ List.range' 1 mids.length,
      addChange (mids ++ [mid] ++ [mid']) (inventories ++ [inventory] ++ [inventory']) pnl i =
        addChange (mids ++ [mid]) (inventories ++ [inventory]) pnl i := by
    intro pnl i hi
    rw [List.mem_range'_1] at hi
    unfold addChange
    rw [getD_concat_concat (by omega), getD_concat_concat (by omega), getD_concat_concat (by omega)]
  have hlast : ∀ pnl, addChange (mids ++ [mid] ++ [mid']) (inventories ++ [inventory] ++ [inventory'])
      pnl (1 + 1 * mids.length) = pnl + (inventory * (mid' - mid) : Int) := by
    intro pnl
    unfold addChange
    rw [one_mul, Nat.add_sub_cancel_left, getD_concat_concat h.le, getD_concat_concat le_rfl]
    simp [h, Nat.add_comm 1]
  rw [inventoryPnl_eq (by simp [h]), inventoryPnl_eq (by simp [h])]
  simp only [List.length_append, List.length_singleton, Nat.add_sub_cancel]
  rw [List.range'_concat, List.foldl_append, List.foldl_ext _ _ _ hearlier, List.foldl_cons,
    List.foldl_nil, hlast]

end MetricsEngine

/-- Record of a quote placement for lifetime tracking. -/
structure QuoteRecord (T : Type) where
  orderId : Int
  timestamp : T
  cancelTimestamp : Option T := none
  wasFilled : Bool := false
  deriving DecidableEq, Repr

/-- The part of the metrics engine that is about quotes. -/
structure QuoteLog (T : Type) where
  quotes : List (QuoteRecord T) := []
  totalOrdersSent : Nat := 0
  totalCancels : Nat := 0
  deriving DecidableEq, Repr

namespace QuoteLog

variable {T : Type}

/-- Record a quote placement. -/
def recordQuote (m : QuoteLog T) (quote : QuoteRecord T) : QuoteLog T :=
  { m with quotes := m.quotes ++ [quote], totalOrdersSent := m.totalOrdersSent + 1 }

/-- Close the first open quote with an id. -/
def closeFirst (orderId : Int) (timestamp : T) : List (QuoteRecord T) → List (QuoteRecord T)
  | [] => []
  | q :: quotes =>
    if q.orderId = orderId ∧ q.cancelTimestamp.isNone then
      { q with cancelTimestamp := some timestamp } :: quotes
    else q :: closeFirst orderId timestamp quotes

/-- Record a quote cancellation: the last open quote with the id is closed. -/
def recordCancel (m : QuoteLog T) (orderId : Int) (timestamp : T) : QuoteLog T :=
  { m with
    quotes := (closeFirst orderId timestamp m.quotes.reverse).reverse
    totalCancels := m.totalCancels + 1 }

/-- How long the quotes that are no longer open were live. -/
def lifetimes [DivisionRing T] (m : QuoteLog T) : List T :=
  m.quotes.filterMap fun q =>
    match q.cancelTimestamp with
    | some cancelled => some (cancelled - q.timestamp)
    | none => if q.wasFilled then some 0 else none

/-- Average time a quote is live before cancel or fill. -/
def quoteLifetimeAvg [DivisionRing T] (m : QuoteLog T) : T :=
  if m.lifetimes = [] then 0 else m.lifetimes.sum / m.lifetimes.length

end QuoteLog

end LiquidityArena

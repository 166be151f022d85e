import LiquidityArena.Simulation.Metrics

/-!
# What the profit decomposition leaves out

A flat account makes maker fills and sees the mid price move; each is logged as it happens.
The inventory component accounts for all moves. The spread component counts each fill as if
its quantity were one, and the difference is carried along the whole history.
-/

namespace LiquidityArena

/-- What happens to the account of a market maker: a fill, marked with the mid price after it or
not, or a move of the mid price. -/
inductive MakerEvent where
  | fill (side : AgentSide) (price quantity : Int) (makerFee takerFee : ℚ) (marked : Bool)
  | move (mid : Int)
  deriving DecidableEq, Repr

/-- The account and the metrics that are kept of it. -/
structure MakerAccount where
  mid : Int
  cash : Int := 0
  inventory : Int := 0
  feesPaid : ℚ := 0
  metrics : MetricsEngine := {}
  deriving DecidableEq, Repr

namespace MakerAccount

/-- Log the inventory and the mid price, with whatever profit is reported. -/
def logState (a : MakerAccount) (pnl : ℚ) : MakerAccount :=
  { a with metrics := a.metrics.recordState pnl a.inventory a.mid }

/-- One event and the calls that record it. -/
def step (report : MakerAccount → ℚ) (a : MakerAccount) : MakerEvent → MakerAccount
  | .fill side price quantity makerFee takerFee marked =>
    let record : FillRecord :=
      { price, quantity, side, isMaker := true, midAtFill := a.mid
        midAfterFill := if marked then some a.mid else none, makerFee, takerFee }
    let a' : MakerAccount :=
      { a with
        cash := a.cash - price * BaseAgent.signed side quantity
        inventory := a.inventory + BaseAgent.signed side quantity
        feesPaid := a.feesPaid + makerFee
        metrics := a.metrics.recordFill record }
    a'.logState (report a')
  | .move mid =>
    let a' := { a with mid }
    a'.logState (report a')

/-- The cash flow of the fills and the inventory at the mid price, less the fees. -/
def markToMarket (a : MakerAccount) : ℚ := a.cash + a.inventory * a.mid - a.feesPaid

/-- The profit as the decomposition has it. -/
def decomposed (a : MakerAccount) : ℚ :=
  let pnl := a.metrics.pnlDecomposition
  pnl.spreadCapture + pnl.inventoryPnl - pnl.adverseSelection - pnl.netFees

/-- How far a fill is on the right side of the mid price. -/
def edge (side : AgentSide) (price mid : Int) : Int := BaseAgent.signed side (mid - price)

/-- The edges of the fills of a history, each times the units after the first. -/
def unweighted : Int → List MakerEvent → Int
  | _, [] => 0
  | mid, .fill side price quantity _ _ _ :: events =>
    (quantity - 1) * edge side price mid + unweighted mid events
  | _, .move mid :: events => unweighted mid events

/-- The last entries of the logs are the account's; without entries it is flat. -/
def Logged (a : MakerAccount) : Prop :=
  (a.metrics.midHistory = [] ∧ a.metrics.inventoryHistory = [] ∧ a.inventory = 0) ∨
    ∃ mids inventories : List Int, mids.length = inventories.length ∧
      a.metrics.midHistory = mids ++ [a.mid] ∧
      a.metrics.inventoryHistory = inventories ++ [a.inventory]

variable {a : MakerAccount} (report : MakerAccount → ℚ)

/-- A further entry accounts for the change of the mid price at the old inventory. -/
theorem Logged.inventoryPnl (h : a.Logged) (mid inventory : Int) :
    MetricsEngine.inventoryPnl (a.metrics.midHistory ++ [mid])
        (a.metrics.inventoryHistory ++ [inventory]) =
      MetricsEngine.inventoryPnl a.metrics.midHistory a.metrics.inventoryHistory +
        (a.inventory * (mid - a.mid) : Int) := by
  rcases h with ⟨hmids, hinventories, hflat⟩ | ⟨mids, inventories, hlen, hmids, hinventories⟩
  · rw [hmids, hinventories, hflat, zero_mul, Int.cast_zero, add_zero]
    rfl
  · rw [hmids, hinventories, MetricsEngine.inventoryPnl_concat hlen]

/-- After an event the account is logged. -/
theorem Logged.step (h : a.Logged) (e : MakerEvent) : (a.step report e).Logged := by
  have hlen : a.metrics.midHistory.length = a.metrics.inventoryHistory.length := by
    rcases h with ⟨hmids, hinventories, -⟩ | ⟨mids, inventories, hlen, hmids, hinventories⟩
    · rw [hmids, hinventories]
    · rw [hmids, hinventories, List.length_append, List.length_append, hlen]
      rfl
  cases e with
  | fill side price quantity makerFee takerFee marked => exact Or.inr ⟨_, _, hlen, rfl, rfl⟩
  | move mid => exact Or.inr ⟨_, _, hlen, rfl, rfl⟩

/-- A fill adds its edge to the decomposition, once, and takes off its fee. -/
theorem Logged.decomposed_fill (h : a.Logged) (side : AgentSide) (price quantity : Int)
    (makerFee takerFee : ℚ) (marked : Bool) :
    (a.step report (.fill side price quantity makerFee takerFee marked)).decomposed =
      a.decomposed + edge side price a.mid - makerFee := by
  simp only [MakerAccount.step, logState, decomposed, MetricsEngine.pnlDecomposition,
    MetricsEngine.fillSums, MetricsEngine.recordFill, MetricsEngine.recordState, h.inventoryPnl,
    List.foldl_append, List.foldl_cons, List.foldl_nil, MetricsEngine.addFill, if_true, sub_self]
  cases side <;> cases marked <;> simp [edge, BaseAgent.signed] <;> ring

/-- A move adds the inventory times the change. -/
theorem Logged.decomposed_move (h : a.Logged) (mid : Int) :
    (a.step report (.move mid)).decomposed = a.decomposed + (a.inventory * (mid - a.mid) : Int) := by
  simp only [MakerAccount.step, logState, decomposed, MetricsEngine.pnlDecomposition,
    MetricsEngine.fillSums, MetricsEngine.recordState, h.inventoryPnl]
  ring

/-- What one event adds to the profit that the decomposition does not see. -/
theorem Logged.gap_step (h : a.Logged) (e : MakerEvent) (events : List MakerEvent) :
    (a.step report e).markToMarket - (a.step report e).decomposed +
        unweighted (a.step report e).mid events =
      a.markToMarket - a.decomposed + unweighted a.mid (e :: events) := by
  cases e with
  | fill side price quantity makerFee takerFee marked =>
    rw [h.decomposed_fill]
    simp only [MakerAccount.step, logState, markToMarket, unweighted, edge]
    cases side <;> simp only [BaseAgent.signed] <;> push_cast <;> ring
  | move mid =>
    rw [h.decomposed_move]
    simp only [MakerAccount.step, logState, markToMarket, unweighted]
    push_cast
    ring

/-- What a history adds to the profit that the decomposition does not see. -/
theorem Logged.gap_run (h : a.Logged) (events : List MakerEvent) :
    (events.foldl (MakerAccount.step report) a).markToMarket -
        (events.foldl (MakerAccount.step report) a).decomposed =
      a.markToMarket - a.decomposed + unweighted a.mid events := by
  induction events generalizing a with
  | nil => simp [unweighted]
  | cons e events ih =>
    rw [List.foldl_cons, ih (h.step report e), h.gap_step report e events]

end MakerAccount

/-- For every history of maker fills and moves of the mid price, whatever profits are reported along
it, the decomposition adds up to the mark-to-market profit exactly if the edges of the fills, each
times the units after the first, cancel. -/
theorem decomposition_adds_up_iff (report : MakerAccount → ℚ) (mid : Int)
    (events : List MakerEvent) :
    (events.foldl (MakerAccount.step report) { mid }).decomposed =
        (events.foldl (MakerAccount.step report) { mid }).markToMarket ↔
      MakerAccount.unweighted mid events = 0 := by
  have hlogged : MakerAccount.Logged { mid } := Or.inl ⟨rfl, rfl, rfl⟩
  have hstart : MakerAccount.markToMarket { mid } - MakerAccount.decomposed { mid } = 0 := by
    simp [MakerAccount.markToMarket, MakerAccount.decomposed, MetricsEngine.pnlDecomposition,
      MetricsEngine.fillSums, MetricsEngine.inventoryPnl]
  have hgap := hlogged.gap_run report events
  rw [hstart, zero_add] at hgap
  rw [eq_comm, ← sub_eq_zero, hgap, Int.cast_eq_zero]

/-- Two units bought one tick below the mid price are worth two, and the decomposition says one. -/
theorem two_units_count_once :
    ([MakerEvent.fill .bid 99 2 0 0 false].foldl (MakerAccount.step fun _ => 0)
        { mid := 100 }).decomposed = 1 ∧
      ([MakerEvent.fill .bid 99 2 0 0 false].foldl (MakerAccount.step fun _ => 0)
        { mid := 100 }).markToMarket = 2 :=
  ⟨by decide +kernel, by decide +kernel⟩

end LiquidityArena

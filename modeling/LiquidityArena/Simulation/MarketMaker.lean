import LiquidityArena.Simulation.BaseAgent
import Mathlib.Data.Rat.Floor

/-!
# The market maker

On every valid book update the market maker cancels all its quotes and places new ones on
several levels around a reservation price. Its arithmetic is exact here; the logarithm is
a parameter. The analytics records are left out.
-/

namespace LiquidityArena

/-- The integer part of a number, towards zero. -/
def truncate (x : ℚ) : Int := if 0 ≤ x then ⌊x⌋ else ⌈x⌉

/-- The integer part of a fraction of a number is at most the number, or zero. -/
theorem truncate_mul_le (n : Int) {x : ℚ} (hx : 0 ≤ x) (hone : x ≤ 1) :
    truncate (n * x) ≤ max 0 n := by
  rcases le_or_gt 0 n with hn | hn
  · have hn' : (0 : ℚ) ≤ n := by exact_mod_cast hn
    rw [truncate, if_pos (mul_nonneg hn' hx), max_eq_right hn]
    have hle := (Int.floor_le ((n : ℚ) * x)).trans (mul_le_of_le_one_right hn' hone)
    exact_mod_cast hle
  · have hn' : (n : ℚ) * x ≤ 0 := mul_nonpos_of_nonpos_of_nonneg (by exact_mod_cast hn.le) hx
    rw [truncate, max_eq_left hn.le]
    split_ifs
    · exact Int.floor_nonpos hn'
    · exact Int.ceil_le.mpr (by exact_mod_cast hn')

/-- The nearest integer, and the even one of two that are equally near. -/
def roundHalfEven (x : ℚ) : Int :=
  if x - ⌊x⌋ < 1 / 2 then ⌊x⌋
  else if 1 / 2 < x - ⌊x⌋ then ⌊x⌋ + 1
  else if ⌊x⌋ % 2 = 0 then ⌊x⌋ else ⌊x⌋ + 1

/-- Of the integers there is none nearer. -/
theorem abs_roundHalfEven_sub_le (x : ℚ) : |(roundHalfEven x : ℚ) - x| ≤ 1 / 2 := by
  have hle := Int.floor_le x
  have hlt := Int.lt_floor_add_one x
  rw [abs_le]
  unfold roundHalfEven
  split_ifs <;> push_cast <;> constructor <;> linarith

/-- An even distance is kept. -/
theorem roundHalfEven_add_even (x : ℚ) (k : Int) :
    roundHalfEven (x + (2 * k : Int)) = roundHalfEven x + 2 * k := by
  have hfract : x + (2 * k : Int) - (⌊x⌋ + 2 * k : Int) = x - ⌊x⌋ := by
    push_cast
    ring
  have heven : (⌊x⌋ + 2 * k) % 2 = ⌊x⌋ % 2 := Int.add_mul_emod_self_left ..
  rw [roundHalfEven, roundHalfEven, Int.floor_add_intCast, hfract, heven]
  split_ifs <;> ring

/-- Rounding keeps the order. -/
theorem roundHalfEven_mono {x y : ℚ} (h : x ≤ y) : roundHalfEven x ≤ roundHalfEven y := by
  by_contra hlt
  have hstep : (roundHalfEven y : ℚ) + 1 ≤ roundHalfEven x := by
    exact_mod_cast not_le.mp hlt
  obtain ⟨-, hx⟩ := abs_le.mp (abs_roundHalfEven_sub_le x)
  obtain ⟨hy, -⟩ := abs_le.mp (abs_roundHalfEven_sub_le y)
  -- both are half a tick off, so they are the same number
  obtain rfl : x = y := by linarith
  exact hlt le_rfl

/-- Two ticks apart stay two ticks apart. -/
theorem roundHalfEven_add_two_le {x y : ℚ} (h : x + 2 ≤ y) :
    roundHalfEven x + 2 ≤ roundHalfEven y := by
  have hshift := roundHalfEven_add_even x 1
  rw [mul_one] at hshift
  rw [← hshift]
  exact roundHalfEven_mono h

/-- The slice `l[-n:]`. -/
def suffix {α : Type} (l : List α) (n : Int) : List α :=
  if 0 < n then l.drop (l.length - n.toNat) else l.drop (-n).toNat

/-- The differences of neighbours. -/
def differences (l : List ℚ) : List ℚ := (l.zip l.tail).map fun p => p.2 - p.1

/-- The population variance. -/
def variance (l : List ℚ) : ℚ :=
  let mean := l.sum / l.length
  (l.map fun x => (x - mean) ^ 2).sum / l.length

/-- The parameters of a market maker. Risk aversion, intensity and horizon are positive; the file
that they are read from is not checked for it. -/
structure MarketMakerConfig where
  gamma : ℚ
  kappa : ℚ
  maxInventory : Int
  numLevels : Nat
  levelSpacing : Int
  baseQuantity : Int
  sigmaWindow : Int
  totalSteps : Int
  log : ℚ → ℚ
  gamma_pos : 0 < gamma
  kappa_pos : 0 < kappa
  totalSteps_pos : 0 < totalSteps

/-- The market maker's own state; the list of pending cancels does not exist at first. -/
structure MarketMaker where
  base : BaseAgent
  midHistory : List ℚ := []
  sigmaSq : ℚ := 1
  pendingCancels : Option (List Int) := none

namespace MarketMaker

/-- Estimate the variance of midprice changes over a rolling window. -/
def estimateSigmaSq (cfg : MarketMakerConfig) (m : MarketMaker) (mid : ℚ) : MarketMaker :=
  let history := m.midHistory ++ [mid]
  if history.length < 3 then { m with midHistory := history }
  else
    let kept := if (history.length : Int) > cfg.sigmaWindow then suffix history cfg.sigmaWindow
      else history
    let changes := differences (suffix kept (min kept.length cfg.sigmaWindow))
    { m with
      midHistory := kept
      sigmaSq := if 1 < changes.length then variance changes + 1 / 1000000 else m.sigmaSq }

/-- What the quotes of one update depend on. -/
structure Quotes where
  bidPrice : Int
  askPrice : Int
  canBuy : Bool
  canSell : Bool
  qty : Int
  deriving DecidableEq, Repr

/-- Prices, sides and quantity of the quotes, from inventory, variance and time. All of it is computed
exactly. -/
def quotes (cfg : MarketMakerConfig) (m : MarketMaker) (mid : ℚ) (step : Int) : Quotes :=
  let timeLeft : ℚ := max (1 / 1000) (1 - step / cfg.totalSteps)
  let q := m.base.stats.inventory
  let reservation := mid - q * cfg.gamma * m.sigmaSq * timeLeft
  let delta := max (cfg.gamma * m.sigmaSq * timeLeft +
    2 / cfg.gamma * cfg.log (1 + cfg.gamma / cfg.kappa)) 2
  let ratio : ℚ := if 0 < cfg.maxInventory then |q| / cfg.maxInventory else 0
  let scale : ℚ := max (1 / 10) (1 - ratio * (8 / 10))
  { bidPrice := roundHalfEven (reservation - delta / 2)
    askPrice := roundHalfEven (reservation + delta / 2)
    canBuy := q < cfg.maxInventory
    canSell := -cfg.maxInventory < q
    qty := max 1 (truncate (cfg.baseQuantity * scale)) }

/-- Create a quote with the next id, and track it. -/
def place (side : AgentSide) (price quantity : Int) (placed : BaseAgent × List AgentOrder) :
    BaseAgent × List AgentOrder :=
  let (id, a) := placed.1.nextOrderId
  let order : AgentOrder := ⟨id, side, .limit, price, quantity⟩
  (a.trackOrder order, placed.2 ++ [order])

/-- The quotes of one level; they are smaller at worse prices. -/
def placeLevel (cfg : MarketMakerConfig) (q : Quotes) (placed : BaseAgent × List AgentOrder)
    (level : Nat) : BaseAgent × List AgentOrder :=
  let offset := level * cfg.levelSpacing
  let levelQty := max 1 (q.qty / (level + 1))
  let bought := if q.canBuy then place .bid (q.bidPrice - offset) levelQty placed else placed
  if q.canSell then place .ask (q.askPrice + offset) levelQty bought else bought

/-- React to a book update: cancel all stale quotes and place new ones. -/
def onBookUpdate (m : MarketMaker) (cfg : MarketMakerConfig) (update : TcpClient.BookUpdateMsg)
    (step : Int) : List AgentOrder × MarketMaker :=
  if update.bestBid ≤ 0 ∨ update.bestAsk ≤ 0 then ([], m)
  else
    let mid : ℚ := (update.bestBid + update.bestAsk) / 2
    let (stale, a) := (m.base.updateUnrealizedPnl (truncate mid)).cancelAll
    let m' := estimateSigmaSq cfg { m with base := a, pendingCancels := some stale } mid
    let placed := (List.range cfg.numLevels).foldl (placeLevel cfg (quotes cfg m' mid step))
      (m'.base, [])
    (placed.2, { m' with base := placed.1 })

end MarketMaker

end LiquidityArena

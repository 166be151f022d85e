import LiquidityArena.Simulation.MarketMaker

/-!
# Price processes

Three processes generate the true price, and two scenarios of the frontend interfere with
it. Arithmetic is exact here; what the random generators return is an argument, and so is
the exponential function.
-/

namespace LiquidityArena

/-- Geometric Brownian motion. -/
structure GBMProcess where
  initialPrice : Int := 10000
  mu : ℚ := 0
  sigma : ℚ := 5 / 1000
  dt : ℚ := 1 / 1000
  currentPrice : ℚ := initialPrice
  deriving DecidableEq, Repr

/-- A mean-reverting process. -/
structure OUProcess where
  initialPrice : Int := 10000
  kappa : ℚ := 1 / 2
  theta : ℚ := 10000
  sigma : ℚ := 50
  dt : ℚ := 1 / 1000
  currentPrice : ℚ := initialPrice
  deriving DecidableEq, Repr

/-- The regimes of volatility. -/
inductive Regime where
  | calm
  | volatile
  | news
  deriving DecidableEq, Repr

/-- Parameters for a single volatility regime. -/
structure RegimeParams where
  sigma : ℚ
  durationMean : Int
  jumpSize : ℚ := 0
  deriving DecidableEq, Repr

/-- The regimes of a process that is given none. -/
def defaultRegimes : Regime → RegimeParams
  | .calm => { sigma := 30, durationMean := 200 }
  | .volatile => { sigma := 100, durationMean := 50 }
  | .news => { sigma := 200, durationMean := 10, jumpSize := 50 }

/-- A mean-reverting process whose volatility depends on a regime. -/
structure RegimeSwitchingProcess where
  initialPrice : Int := 10000
  kappa : ℚ := 3 / 10
  theta : ℚ := 10000
  dt : ℚ := 1 / 1000
  currentPrice : ℚ := initialPrice
  regimes : Regime → RegimeParams := defaultRegimes
  currentRegime : Regime := .calm
  stepsInRegime : Nat := 0

/-- What the generator returns during one step: the normal increment, and for the process with
regimes the draw that decides about a switch, the regime chosen and the direction of a jump. -/
structure PriceDraws where
  dw : ℚ
  switch : ℚ := 1
  regime : Regime := .calm
  up : Bool := true
  deriving DecidableEq, Repr

/-- The prices after so many increments, rounded. -/
def pricePath (next : ℚ → ℚ → ℚ) (s : ℚ) : List ℚ → List Int
  | [] => []
  | dw :: dws => roundHalfEven (next s dw) :: pricePath next (next s dw) dws

namespace GBMProcess

/-- The next price. -/
def next (p : GBMProcess) (s dw : ℚ) : ℚ := s * (1 + p.mu * p.dt + p.sigma * dw)

/-- Generate full path upfront. -/
def generate (p : GBMProcess) (dws : List ℚ) : List Int := pricePath p.next p.initialPrice dws

/-- Generate the next price tick. -/
def step (p : GBMProcess) (dw : ℚ) : Int × GBMProcess :=
  let s := p.next p.currentPrice dw
  (roundHalfEven s, { p with currentPrice := s })

end GBMProcess

/-- The pull towards the mean and a shock, computed exactly. -/
def revert (kappa theta dt sigma s dw : ℚ) : ℚ := s + (kappa * (theta - s) * dt + sigma * dw)

namespace OUProcess

/-- The next price. -/
def next (p : OUProcess) (s dw : ℚ) : ℚ := revert p.kappa p.theta p.dt p.sigma s dw

/-- Generate full path upfront. -/
def generate (p : OUProcess) (dws : List ℚ) : List Int := pricePath p.next p.initialPrice dws

/-- Generate the next price tick. -/
def step (p : OUProcess) (dw : ℚ) : Int × OUProcess :=
  let s := p.next p.currentPrice dw
  (roundHalfEven s, { p with currentPrice := s })

end OUProcess

namespace RegimeSwitchingProcess

/-- Check if we should transition to a new regime. -/
def maybeSwitchRegime (exp : ℚ → ℚ) (p : RegimeSwitchingProcess) (draws : PriceDraws) :
    RegimeSwitchingProcess :=
  let steps := p.stepsInRegime + 1
  let duration := (p.regimes p.currentRegime).durationMean
  let switchProb := 1 - exp (-steps / (max duration 1 : Int))
  if draws.switch < switchProb * (1 / 10) ∧ draws.regime ≠ p.currentRegime then
    { p with
      currentRegime := draws.regime
      stepsInRegime := 0
      currentPrice :=
        if draws.regime = .news then
          p.currentPrice + (if draws.up then 1 else -1) * (p.regimes .news).jumpSize
        else p.currentPrice }
  else { p with stepsInRegime := steps }

/-- Generate the next price tick, after a switch of regime if there is one. -/
def step (exp : ℚ → ℚ) (p : RegimeSwitchingProcess) (draws : PriceDraws) :
    Int × RegimeSwitchingProcess :=
  let q := p.maybeSwitchRegime exp draws
  let s := revert q.kappa q.theta q.dt (q.regimes q.currentRegime).sigma q.currentPrice draws.dw
  (roundHalfEven s, { q with currentPrice := s })

end RegimeSwitchingProcess

/-- The process that generates the true price. -/
inductive PriceProcess where
  | gbm (p : GBMProcess)
  | ou (p : OUProcess)
  | regimeSwitching (p : RegimeSwitchingProcess)

namespace PriceProcess

/-- The price at which the process starts. -/
def initialPrice : PriceProcess → Int
  | .gbm p => p.initialPrice
  | .ou p => p.initialPrice
  | .regimeSwitching p => p.initialPrice

/-- Generate the next price tick. -/
def step (exp : ℚ → ℚ) : PriceProcess → PriceDraws → Int × PriceProcess
  | .gbm p, draws => (p.step draws.dw).map id .gbm
  | .ou p, draws => (p.step draws.dw).map id .ou
  | .regimeSwitching p, draws => (p.step exp draws).map id .regimeSwitching

/-- The ticks of one step after the other. -/
def ticks (exp : ℚ → ℚ) (p : PriceProcess) : List PriceDraws → List Int
  | [] => []
  | draws :: rest => (p.step exp draws).1 :: ticks exp (p.step exp draws).2 rest

/-- Generate a price path. -/
def generate (exp : ℚ → ℚ) : PriceProcess → List PriceDraws → List Int
  | .gbm p, draws => p.generate (draws.map (·.dw))
  | .ou p, draws => p.generate (draws.map (·.dw))
  | .regimeSwitching p, draws => ticks exp (.regimeSwitching p) draws

/-- How far the price drops in a flash crash. -/
def drop : Int := 100

/-- An instant drop; a process that reverts to a mean has a lower mean afterwards. -/
def flashCrash : PriceProcess → PriceProcess
  | .gbm p => .gbm { p with currentPrice := p.currentPrice - drop }
  | .ou p => .ou { p with theta := p.theta - drop, currentPrice := p.currentPrice - drop }
  | .regimeSwitching p =>
    .regimeSwitching { p with theta := p.theta - drop, currentPrice := p.currentPrice - drop }

/-- The volatile regime, or else the triple volatility. -/
def volSpike : PriceProcess → PriceProcess
  | .gbm p => .gbm { p with sigma := p.sigma * 3 }
  | .ou p => .ou { p with sigma := p.sigma * 3 }
  | .regimeSwitching p => .regimeSwitching { p with currentRegime := .volatile }

end PriceProcess

end LiquidityArena

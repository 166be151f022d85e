import Mathlib.Algebra.Order.Field.Basic
import Mathlib.Tactic

/-!
# The Hawkes process of the order flow

Past events raise the intensity, and the raise decays. The arithmetic is that of an ordered
field; the exponential function is a parameter, so that the process can be evaluated on
rationals. One step takes as many uniform draws as there are candidates.
-/

namespace LiquidityArena

/-- What the process needs of the exponential function. -/
structure Kernel (R : Type) [Field R] [LinearOrder R] where
  exp : R → R
  exp_pos : ∀ x, 0 < exp x
  exp_zero : exp 0 = 1

/-- A self-exciting point process; the constructor asserts that it is stationary. -/
structure HawkesProcess (R : Type) [Field R] [LinearOrder R] where
  mu : R
  alpha : R
  beta : R
  eventTimes : List R := []
  currentTime : R := 0
  mu_nonneg : 0 ≤ mu
  alpha_pos : 0 < alpha
  alpha_lt_beta : alpha < beta

namespace HawkesProcess

variable {R : Type} [Field R] [LinearOrder R] (kernel : Kernel R)

/-- The current intensity. -/
def intensity (h : HawkesProcess R) : R :=
  h.eventTimes.foldl
    (fun lam ti => lam + h.alpha * kernel.exp (-h.beta * (h.currentTime - ti))) h.mu

/-- Advance the time and prune old events. -/
def advance (h : HawkesProcess R) (dt : R) : HawkesProcess R :=
  let currentTime := h.currentTime + dt
  let cutoff := currentTime - (10 : ℕ) / h.beta
  { h with currentTime, eventTimes := h.eventTimes.filter fun t => t > cutoff }

/-- The bound that a step fixes before it looks at its candidates. -/
def lamBar (h : HawkesProcess R) : R := h.intensity kernel + h.alpha

/-- An event at the current time. -/
def excite (h : HawkesProcess R) : HawkesProcess R :=
  { h with eventTimes := h.eventTimes ++ [h.currentTime] }

/-- The probability of accepting a candidate at an intensity. -/
def acceptance (lamBar lam : R) : R := lam / max lamBar (1 / (10 : ℕ) ^ 10)

/-- One candidate: it is an event if the draw is below the acceptance probability. -/
def candidate (lamBar : R) (s : Nat × HawkesProcess R) (draw : R) : Nat × HawkesProcess R :=
  if draw < acceptance lamBar (s.2.intensity kernel) then (s.1 + 1, s.2.excite) else s

/-- Advance by `dt` and thin the candidates; the number of events comes with the new state. -/
def step (h : HawkesProcess R) (dt : R) (draws : List R) : Nat × HawkesProcess R :=
  draws.foldl (candidate kernel ((h.advance dt).lamBar kernel)) (0, h.advance dt)

/-- A candidate with the count and the process apart. -/
theorem candidate_mk (lamBar : R) (n : Nat) (h : HawkesProcess R) (draw : R) :
    candidate kernel lamBar (n, h) draw =
      if draw < acceptance lamBar (h.intensity kernel) then (n + 1, h.excite) else (n, h) :=
  rfl

@[simp] theorem alpha_excite (h : HawkesProcess R) : h.excite.alpha = h.alpha := rfl

variable {kernel}

/-- Each event at the current time raises the intensity by `alpha`. -/
theorem intensity_excite (h : HawkesProcess R) :
    h.excite.intensity kernel = h.intensity kernel + h.alpha := by
  unfold intensity excite
  rw [List.foldl_append, List.foldl_cons, List.foldl_nil, sub_self, mul_zero, kernel.exp_zero,
    mul_one]

variable [IsStrictOrderedRing R]

/-- The intensity is never negative. -/
theorem intensity_nonneg (h : HawkesProcess R) : 0 ≤ h.intensity kernel := by
  have hfold : ∀ (times : List R) (lam : R), 0 ≤ lam →
      0 ≤ times.foldl (fun lam ti => lam + h.alpha * kernel.exp (-h.beta * (h.currentTime - ti)))
        lam := by
    intro times
    induction times with
    | nil => exact fun lam hlam => hlam
    | cons ti times ih =>
      intro lam hlam
      apply ih
      have hraise := mul_pos h.alpha_pos (kernel.exp_pos (-h.beta * (h.currentTime - ti)))
      exact add_nonneg hlam hraise.le
  exact hfold _ _ h.mu_nonneg

/-- The thinning bound is positive. -/
theorem lamBar_pos (h : HawkesProcess R) : 0 < h.lamBar kernel :=
  add_pos_of_nonneg_of_pos h.intensity_nonneg h.alpha_pos

/-- A new process with the default parameters. -/
def standard : HawkesProcess R where
  mu := 1
  alpha := (3 : ℕ) / (5 : ℕ)
  beta := (3 : ℕ) / (2 : ℕ)
  mu_nonneg := zero_le_one
  alpha_pos := by norm_num
  alpha_lt_beta := by norm_num

/-- Without events the default process stays at its base intensity. -/
theorem intensity_standard (kernel : Kernel R) (dt : R) :
    (standard.advance dt).intensity kernel = 1 := rfl

/-- Without events the default process bounds its intensity by 8/5. -/
theorem lamBar_standard (kernel : Kernel R) (dt : R) :
    (standard.advance dt).lamBar kernel = 8 / 5 := by
  change (1 : R) + (3 : ℕ) / (5 : ℕ) = 8 / 5
  norm_num

end HawkesProcess

end LiquidityArena

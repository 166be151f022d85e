import LiquidityArena.Simulation.PriceProcess

/-!
# Price paths under scenarios

A flash crash moves the price and the mean it reverts to by the same amount, so it shifts
all that follows. The pull towards the mean keeps bounded shocks within a band.
-/

namespace LiquidityArena

/-- What happens to a price process: a step of the simulation, or a scenario of the frontend. -/
inductive PriceEvent where
  | move (draws : PriceDraws)
  | flashCrash
  | volSpike
  deriving DecidableEq

namespace PriceProcess

/-- No step has been taken, or the path that is generated continues from the current price. -/
def Fresh : PriceProcess → Prop
  | .gbm p => p.currentPrice = p.initialPrice
  | .ou p => p.currentPrice = p.initialPrice
  | .regimeSwitching _ => True

/-- The path generated upfront is the one that the steps take. -/
theorem generate_eq_ticks (exp : ℚ → ℚ) (p : PriceProcess) (hp : p.Fresh)
    (draws : List PriceDraws) : p.generate exp draws = p.ticks exp draws := by
  cases p with
  | gbm p =>
    have hprice : p.currentPrice = p.initialPrice := hp
    have hpath : ∀ s, pricePath p.next s (draws.map (·.dw)) =
        ticks exp (.gbm { p with currentPrice := s }) draws := by
      induction draws with
      | nil => exact fun _ => rfl
      | cons d rest ih => exact fun s => congrArg (_ :: ·) (ih _)
    rw [generate, GBMProcess.generate, ← hprice]
    exact hpath p.currentPrice
  | ou p =>
    have hprice : p.currentPrice = p.initialPrice := hp
    have hpath : ∀ s, pricePath p.next s (draws.map (·.dw)) =
        ticks exp (.ou { p with currentPrice := s }) draws := by
      induction draws with
      | nil => exact fun _ => rfl
      | cons d rest ih => exact fun s => congrArg (_ :: ·) (ih _)
    rw [generate, OUProcess.generate, ← hprice]
    exact hpath p.currentPrice
  | regimeSwitching p => rfl

/-- The process reverts to a mean. -/
def MeanReverting : PriceProcess → Prop
  | .gbm _ => False
  | .ou _ => True
  | .regimeSwitching _ => True

/-- The process with a lower price and a lower mean. -/
def lowered (n : Int) : PriceProcess → PriceProcess
  | .gbm p => .gbm { p with currentPrice := p.currentPrice - n }
  | .ou p => .ou { p with theta := p.theta - n, currentPrice := p.currentPrice - n }
  | .regimeSwitching p =>
    .regimeSwitching { p with theta := p.theta - n, currentPrice := p.currentPrice - n }

variable {exp : ℚ → ℚ} {p : PriceProcess}

/-- Lowering a process by nothing changes nothing. -/
theorem lowered_zero (p : PriceProcess) : p.lowered 0 = p := by
  cases p <;> simp [lowered]

private theorem lowered_add (p : PriceProcess) (m n : Int) :
    p.lowered (m + n) = (p.lowered m).lowered n := by
  cases p <;> simp [lowered, sub_sub]

/-- The distance to the mean is what counts. -/
theorem revert_lowered (kappa theta dt sigma s dw n : ℚ) :
    revert kappa (theta - n) dt sigma (s - n) dw = revert kappa theta dt sigma s dw - n := by
  unfold revert
  ring

/-- An even distance is kept when prices are rounded. -/
theorem roundHalfEven_sub_even (x : ℚ) (k : Int) :
    roundHalfEven (x - (2 * k : Int)) = roundHalfEven x - 2 * k := by
  have h := roundHalfEven_add_even x (-k)
  rw [mul_neg, Int.cast_neg, ← sub_eq_add_neg] at h
  rw [h, sub_eq_add_neg]

private theorem maybeSwitchRegime_lowered (p : RegimeSwitchingProcess) (draws : PriceDraws)
    (n : ℚ) :
    RegimeSwitchingProcess.maybeSwitchRegime exp
        { p with theta := p.theta - n, currentPrice := p.currentPrice - n } draws =
      { p.maybeSwitchRegime exp draws with
        theta := (p.maybeSwitchRegime exp draws).theta - n
        currentPrice := (p.maybeSwitchRegime exp draws).currentPrice - n } := by
  unfold RegimeSwitchingProcess.maybeSwitchRegime
  dsimp only
  rw [sub_add_eq_add_sub]
  split_ifs <;> rfl

/-- A lowered process takes the same steps, lower down. -/
theorem step_lowered (hp : p.MeanReverting) (draws : PriceDraws) (k : Int) :
    (p.lowered (2 * k)).step exp draws =
      ((p.step exp draws).1 - 2 * k, (p.step exp draws).2.lowered (2 * k)) := by
  cases p with
  | gbm p => exact hp.elim
  | ou p =>
    have hprice := revert_lowered p.kappa p.theta p.dt p.sigma p.currentPrice draws.dw (2 * k : Int)
    simp only [lowered, step, OUProcess.step, OUProcess.next, Prod.map, id, hprice]
    rw [roundHalfEven_sub_even]
  | regimeSwitching p =>
    simp only [lowered, step, RegimeSwitchingProcess.step, maybeSwitchRegime_lowered,
      revert_lowered, Prod.map, id]
    rw [roundHalfEven_sub_even]

private theorem volSpike_lowered (p : PriceProcess) (n : Int) :
    (p.lowered n).volSpike = p.volSpike.lowered n := by
  cases p <;> rfl

private theorem flashCrash_eq (p : PriceProcess) : p.flashCrash = p.lowered 100 := by
  cases p <;> rfl

/-- The mid price that the simulator shows and the process, after an event. -/
def track (exp : ℚ → ℚ) (price : Int × PriceProcess) : PriceEvent → Int × PriceProcess
  | .move draws => price.2.step exp draws
  | .flashCrash => (price.1 - drop, price.2.flashCrash)
  | .volSpike => (price.1, price.2.volSpike)

/-- The same mid price and process, lower down. -/
def shifted (n : Int) (price : Int × PriceProcess) : Int × PriceProcess :=
  (price.1 - n, price.2.lowered n)

private theorem MeanReverting.track {price : Int × PriceProcess} (hp : price.2.MeanReverting)
    (exp : ℚ → ℚ) (event : PriceEvent) : (track exp price event).2.MeanReverting := by
  obtain ⟨mid, p⟩ := price
  cases p with
  | gbm p => exact hp.elim
  | ou p => cases event <;> trivial
  | regimeSwitching p => cases event <;> trivial

/-- Events other than crashes do the same lower down. -/
theorem track_shifted {price : Int × PriceProcess} (hp : price.2.MeanReverting) {event : PriceEvent}
    (hevent : event ≠ .flashCrash) (k : Int) :
    track exp (shifted (2 * k) price) event = shifted (2 * k) (track exp price event) := by
  cases event with
  | move draws => exact step_lowered hp draws k
  | flashCrash => exact absurd rfl hevent
  | volSpike => exact congrArg (Prod.mk _) (volSpike_lowered price.2 (2 * k))

private theorem track_flashCrash (exp : ℚ → ℚ) (price : Int × PriceProcess) (k : Int) :
    track exp (shifted (2 * k) price) .flashCrash = shifted (2 * (k + 50)) price := by
  have hdepth : 2 * (k + 50) = 2 * k + 100 := by ring
  rw [hdepth, track, shifted, shifted, flashCrash_eq, lowered_add, sub_add_eq_sub_sub]
  rfl

/-- What any events lead to, lower down: the crashes only add to the depth. -/
theorem foldl_track_shifted (exp : ℚ → ℚ) {price : Int × PriceProcess}
    (hp : price.2.MeanReverting) (events : List PriceEvent) (k : Int) :
    events.foldl (track exp) (shifted (2 * k) price) =
      shifted (2 * (k + 50 * events.count .flashCrash))
        ((events.filter (· ≠ .flashCrash)).foldl (track exp) price) := by
  induction events generalizing price k with
  | nil => simp
  | cons event events ih =>
    rw [List.foldl_cons]
    by_cases hevent : event = .flashCrash
    · subst hevent
      have hdepth : k + 50 + 50 * (events.count .flashCrash : Int) =
          k + 50 * ((events.count .flashCrash + 1 : Nat) : Int) := by
        push_cast
        ring
      rw [track_flashCrash, ih hp (k + 50), List.filter_cons_of_neg (by simp),
        List.count_cons_self, hdepth]
    · rw [track_shifted hp hevent, ih (hp.track exp event) k, List.filter_cons_of_pos (by simpa),
        List.count_cons_of_ne hevent, List.foldl_cons]

section Band

variable {kappa theta dt sigma s dw radius : ℚ}

/-- The pull towards the mean makes up for a shock that is small enough. -/
theorem revert_band (hone : kappa * dt ≤ 1)
    (hshock : |sigma * dw| ≤ kappa * dt * radius) (hs : |s - theta| ≤ radius) :
    |revert kappa theta dt sigma s dw - theta| ≤ radius := by
  have hsplit : revert kappa theta dt sigma s dw - theta =
      (1 - kappa * dt) * (s - theta) + sigma * dw := by
    unfold revert
    ring
  calc |revert kappa theta dt sigma s dw - theta|
      ≤ |(1 - kappa * dt) * (s - theta)| + |sigma * dw| := by
        rw [hsplit]
        exact abs_add_le _ _
    _ = (1 - kappa * dt) * |s - theta| + |sigma * dw| := by
        rw [abs_mul, abs_of_nonneg (sub_nonneg.mpr hone)]
    _ ≤ (1 - kappa * dt) * radius + kappa * dt * radius :=
        add_le_add (mul_le_mul_of_nonneg_left hs (sub_nonneg.mpr hone)) hshock
    _ = radius := by ring

/-- A mean-reverting process after so many crashes and spikes, within a distance of its mean. -/
def Band (q : OUProcess) (crashes spikes : Nat) (radius : ℚ) (p : PriceProcess) : Prop :=
  ∃ s, p = .ou { q with
      currentPrice := s
      theta := q.theta - 100 * crashes
      sigma := q.sigma * 3 ^ spikes } ∧
    |s - (q.theta - 100 * crashes)| ≤ radius

variable {q : OUProcess} {crashes spikes : Nat}

private theorem Band.move (h : Band q crashes spikes radius p) (hone : q.kappa * q.dt ≤ 1)
    {draws : PriceDraws}
    (hshock : |q.sigma * 3 ^ spikes * draws.dw| ≤ q.kappa * q.dt * radius) :
    Band q crashes spikes radius (p.step exp draws).2 ∧
      |((p.step exp draws).1 : ℚ) - (q.theta - 100 * crashes)| ≤ radius + 1 / 2 := by
  obtain ⟨s, rfl, hs⟩ := h
  have hnext := revert_band hone hshock hs
  refine ⟨⟨_, rfl, hnext⟩, ?_⟩
  -- the tick is the price, rounded
  have hround := abs_roundHalfEven_sub_le
    (revert q.kappa (q.theta - 100 * crashes) q.dt (q.sigma * 3 ^ spikes) s draws.dw)
  refine (abs_sub_le _ _ _).trans ((add_le_add hround hnext).trans_eq (add_comm _ _))

private theorem Band.flashCrash (h : Band q crashes spikes radius p) :
    Band q (crashes + 1) spikes radius p.flashCrash := by
  obtain ⟨s, rfl, hs⟩ := h
  have hmean : q.theta - 100 * crashes - (100 : Int) = q.theta - 100 * (crashes + 1 : Nat) := by
    push_cast
    ring
  refine ⟨s - (100 : Int), ?_, ?_⟩
  · rw [← hmean]
    rfl
  · rw [← hmean, sub_sub_sub_cancel_right]
    exact hs

private theorem Band.volSpike (h : Band q crashes spikes radius p) :
    Band q crashes (spikes + 1) radius p.volSpike := by
  obtain ⟨s, rfl, hs⟩ := h
  refine ⟨s, ?_, hs⟩
  rw [pow_succ, ← mul_assoc]
  rfl

/-- The mid price within the band too, but for the rounding of a tick. -/
structure InBand (q : OUProcess) (crashes spikes : Nat) (radius : ℚ)
    (price : Int × PriceProcess) : Prop where
  process : Band q crashes spikes radius price.2
  mid : |(price.1 : ℚ) - (q.theta - 100 * crashes)| ≤ radius + 1 / 2

/-- A crash moves the band, a spike triples the shocks, and a small shock stays within. -/
theorem InBand.track {price : Int × PriceProcess} (h : InBand q crashes spikes radius price)
    (exp : ℚ → ℚ) (hone : q.kappa * q.dt ≤ 1) {event : PriceEvent}
    (hshock : ∀ draws, event = .move draws →
      |q.sigma * 3 ^ spikes * draws.dw| ≤ q.kappa * q.dt * radius) :
    InBand q (crashes + [event].count .flashCrash) (spikes + [event].count .volSpike) radius
      (track exp price event) := by
  cases event with
  | move draws =>
    obtain ⟨hprocess, hmid⟩ := h.process.move hone (hshock draws rfl)
    exact ⟨hprocess, hmid⟩
  | flashCrash =>
    refine ⟨h.process.flashCrash, ?_⟩
    have hshift : ((price.1 - drop : Int) : ℚ) - (q.theta - 100 * (crashes + 1 : Nat)) =
        price.1 - (q.theta - 100 * crashes) := by
      rw [drop]
      push_cast
      ring
    exact hshift ▸ h.mid
  | volSpike => exact ⟨h.process.volSpike, h.mid⟩

/-- The mid price stays within the band, whatever events come. -/
theorem inBand_foldl (exp : ℚ → ℚ) (hone : q.kappa * q.dt ≤ 1)
    {price : Int × PriceProcess} (hstart : InBand q 0 0 radius price) (events : List PriceEvent)
    (hshock : ∀ before draws rest, events = before ++ .move draws :: rest →
      |q.sigma * 3 ^ before.count .volSpike * draws.dw| ≤ q.kappa * q.dt * radius) :
    InBand q (events.count .flashCrash) (events.count .volSpike) radius
      (events.foldl (track exp) price) := by
  induction events using List.reverseRecOn with
  | nil => exact hstart
  | append_singleton events event ih =>
    have hbefore := ih fun before draws rest heq =>
      hshock before draws (rest ++ [event]) (by rw [heq, List.append_assoc, List.cons_append])
    rw [List.foldl_append, List.count_append, List.count_append]
    refine hbefore.track exp hone fun draws hmove => ?_
    exact hshock events draws [] (by rw [hmove])

end Band

end PriceProcess

end LiquidityArena

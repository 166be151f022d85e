import LiquidityArena.Correctness.SimulatedTime

/-!
# Who acts on a price first

The latency arbitrageur is slower than a price move and faster than the market maker, and
even a spike does not make it as slow as the next move. So in its turn it knows the price of
its own step, and the market maker has yet to requote for it.
-/

namespace LiquidityArena

namespace ScheduleConfig

variable {T : Type} [Field T] [LinearOrder T]

/-- The turn of an agent that is scheduled in a step. -/
def turn (cfg : ScheduleConfig T) (draws : Nat → AgentId → LatencyDraw T) (step : Nat)
    (agent : AgentId × Latency T) : Event T where
  timestamp := step * cfg.dt + agent.2.sampleSeconds (draws step agent.1)
  eventType := .agentAction
  agentId := some agent.1

variable {cfg : ScheduleConfig T} {draws : Nat → AgentId → LatencyDraw T}

private theorem mem_scheduleInitialEvents {e : Event T} : e ∈ cfg.scheduleInitialEvents draws ↔
    ∃ step < cfg.steps.toNat, e ∈ cfg.scheduleStep draws step := by
  rw [scheduleInitialEvents, List.mem_flatMap]
  simp only [List.mem_range]

/-- The turns among the events of a step. -/
theorem turn_of_mem_scheduleStep {step : Nat} {e : Event T} (h : e ∈ cfg.scheduleStep draws step)
    {id : AgentId} (hid : e.agentId = some id) :
    ∃ agent ∈ cfg.agents, agent.1 = id ∧ e = cfg.turn draws step agent := by
  rw [scheduleStep, List.cons_append, List.mem_cons, List.mem_append] at h
  rcases h with rfl | h | h
  · cases hid
  · obtain ⟨agent, hagent, rfl⟩ := List.mem_map.mp h
    exact ⟨agent, hagent, Option.some.inj hid, rfl⟩
  · split_ifs at h
    · rw [List.mem_singleton.mp h] at hid
      cases hid
    · cases h

private theorem turn_mem_scheduleStep (cfg : ScheduleConfig T)
    (draws : Nat → AgentId → LatencyDraw T)
    (step : Nat) {agent : AgentId × Latency T} (h : agent ∈ cfg.agents) :
    cfg.turn draws step agent ∈ cfg.scheduleStep draws step := by
  rw [scheduleStep, List.cons_append]
  exact List.mem_cons_of_mem _ (List.mem_append_left _ (List.mem_map.mpr ⟨agent, h, rfl⟩))

omit [LinearOrder T] in
/-- The latency arbitrageur is one agent. -/
theorem eq_latArb {agent : AgentId × Latency T} (h : agent ∈ cfg.agents)
    (hid : agent.1 = .latArb) : agent = latArb := by
  simp only [agents, List.cons_append, List.mem_cons, List.mem_append, List.mem_map,
    List.not_mem_nil, or_false] at h
  rcases h with rfl | ⟨i, -, rfl⟩ | rfl | rfl | rfl | rfl <;> first | rfl | cases hid

/-- What was pushed besides the scheduled events are turns of the first noise trader. -/
def OnlyNoise (cfg : ScheduleConfig T) (draws : Nat → AgentId → LatencyDraw T)
    (s : EventLoop.State Int (Event T)) : Prop :=
  ∃ pushed, s.pushed = cfg.scheduleInitialEvents draws ++ pushed ∧
    ∀ e ∈ pushed, e.eventType = .agentAction ∧ e.agentId = some (.noise 0)

private theorem OnlyNoise.iterate {s s' : EventLoop.State Int (Event T)}
    {a : Event T × List (LatencyDraw T)} (h : cfg.OnlyNoise draws s)
    (hstep : cfg.iterate s a = some s') : cfg.OnlyNoise draws s' := by
  obtain ⟨-, -, rfl⟩ := EventLoop.step_cases hstep
  obtain ⟨pushed, hpushed, hnoise⟩ := h
  refine ⟨pushed ++ (cfg.processEvent s.inner a.1 a.2).2, ?_, fun e he => ?_⟩
  · rw [← List.append_assoc, ← hpushed]
  · rcases List.mem_append.mp he with he | he
    · exact hnoise e he
    · rw [processEvent] at he
      split at he
      · split_ifs at he
        · split at he
          · cases he
          · obtain ⟨draw, -, rfl⟩ := List.mem_map.mp he
            exact ⟨rfl, rfl⟩
        · cases he
      · cases he

/-- A turn of the latency arbitrageur is one of those scheduled at the start. -/
theorem OnlyNoise.arb_turn {s : EventLoop.State Int (Event T)} (h : cfg.OnlyNoise draws s)
    {e : Event T} (he : e ∈ s.pushed) (hid : e.agentId = some .latArb) :
    ∃ step < cfg.steps.toNat, e = cfg.turn draws step latArb := by
  obtain ⟨pushed, hpushed, hnoise⟩ := h
  rw [hpushed] at he
  rcases List.mem_append.mp he with he | he
  · obtain ⟨step, hlt, hscheduled⟩ := mem_scheduleInitialEvents.mp he
    obtain ⟨agent, hagents, harb, rfl⟩ := turn_of_mem_scheduleStep hscheduled hid
    obtain rfl := eq_latArb hagents harb
    exact ⟨step, hlt, rfl⟩
  · rw [(hnoise e he).2] at hid
    cases hid

/-- The price move of a step has its time. -/
theorem time_of_move {step : Nat} {e : Event T} (h : e ∈ cfg.scheduleStep draws step)
    (hmove : e.eventType = .midpriceMove) : e.timestamp = step * cfg.dt := by
  rw [scheduleStep, List.cons_append, List.mem_cons, List.mem_append] at h
  rcases h with rfl | h | h
  · rfl
  · obtain ⟨agent, -, rfl⟩ := List.mem_map.mp h
    cases hmove
  · split_ifs at h
    · rw [List.mem_singleton.mp h] at hmove
      cases hmove
    · cases h

/-- How many of the first steps there are, among so many. -/
theorem sum_range_le (n k : Nat) :
    ((List.range n).map fun step => if step ≤ k then 1 else 0).sum = min n (k + 1) := by
  induction n with
  | zero => simp
  | succ n ih =>
    rw [List.range_succ, List.map_append, List.sum_append, ih, List.map_singleton,
      List.sum_singleton]
    split_ifs <;> omega

section Latency

variable [IsStrictOrderedRing T]

/-- How long a latency can be, without a spike and with one. -/
theorem sampleSeconds_bounds (base : T) {width : T} {draw : LatencyDraw T}
    (hjitter : |draw.jitter| ≤ width) (hwidth : width < base) :
    (base - width) / 1000000 ≤ (latencyModel base).sampleSeconds draw ∧
      (latencyModel base).sampleSeconds draw ≤ (base + width) * 10 / 1000000 ∧
      (1 / 1000 ≤ draw.spike →
        (latencyModel base).sampleSeconds draw ≤ (base + width) / 1000000) := by
  obtain ⟨hlow, hhigh⟩ := abs_le.mp hjitter
  have hnonneg : 0 ≤ width := (abs_nonneg _).trans hjitter
  have hmillion : (0 : T) < 1000000 := by norm_num
  simp only [Latency.sampleSeconds, latencyModel, LatencyConfig.sample]
  refine ⟨?_, ?_, fun hspike => ?_⟩
  · refine (div_le_div_iff_of_pos_right hmillion).mpr (le_max_of_le_right ?_)
    split_ifs <;> linarith
  · refine (div_le_div_iff_of_pos_right hmillion).mpr (max_le (by linarith) ?_)
    split_ifs <;> linarith
  · refine (div_le_div_iff_of_pos_right hmillion).mpr (max_le (by linarith) ?_)
    rw [if_neg hspike.not_gt]
    linarith

/-- The latency arbitrageur's turn comes after the price move of its step and before the next. -/
theorem arb_latency (hjitter : Jittered draws) (hdt : 6 / 10000 < cfg.dt) (step : Nat) :
    0 < latArb.2.sampleSeconds (draws step .latArb) ∧
      latArb.2.sampleSeconds (draws step .latArb) < cfg.dt := by
  obtain ⟨hlow, hhigh, -⟩ := sampleSeconds_bounds 50 (hjitter step).1 (by norm_num)
  refine ⟨lt_of_lt_of_le (by norm_num) hlow, lt_of_le_of_lt (hhigh.trans ?_) hdt⟩
  norm_num

/-- A step begins before a time within a step exactly if it is not a later one, and never at such a
time. -/
theorem step_lt_iff {k step : Nat} {t : T} (hpos : 0 < t) (hlt : t < cfg.dt) :
    ((step : T) * cfg.dt < k * cfg.dt + t ↔ step ≤ k) ∧ (step : T) * cfg.dt ≠ k * cfg.dt + t := by
  have hdt : 0 < cfg.dt := hpos.trans hlt
  rcases le_or_gt step k with hle | hgt
  · have hstep : (step : T) * cfg.dt ≤ k * cfg.dt :=
      mul_le_mul_of_nonneg_right (by exact_mod_cast hle) hdt.le
    have hbefore : (step : T) * cfg.dt < k * cfg.dt + t := by linarith
    exact ⟨iff_of_true hbefore hle, hbefore.ne⟩
  · have hstep : ((k : T) + 1) * cfg.dt ≤ step * cfg.dt :=
      mul_le_mul_of_nonneg_right (by exact_mod_cast hgt) hdt.le
    have hafter : (k : T) * cfg.dt + t < step * cfg.dt := by linarith
    exact ⟨iff_of_false hafter.not_gt hgt.not_ge, hafter.ne'⟩

/-- The price move of a step is before a time within a step exactly if it is not a later step's. -/
theorem countP_scheduleStep {k : Nat} {t : T} (hpos : 0 < t) (hlt : t < cfg.dt) (step : Nat) :
    ((cfg.scheduleStep draws step).countP fun e =>
      decide (e.eventType = .midpriceMove) ∧ e.timestamp < k * cfg.dt + t) =
        if step ≤ k then 1 else 0 := by
  have hone := cfg.moves_scheduleStep draws step
  rw [moves, scheduleStep, List.cons_append, List.countP_cons] at hone
  rw [scheduleStep, List.cons_append, List.countP_cons, List.countP_eq_zero.mpr, Nat.zero_add]
  · simp [(step_lt_iff hpos hlt).1]
  · intro e he hboth
    have hnone := List.countP_eq_zero.mp (Nat.succ.inj hone) e he
    exact hnone (of_decide_eq_true hboth).1

/-- The price moves before a time within a step are those of the steps so far. -/
theorem moves_before (draws : Nat → AgentId → LatencyDraw T) (k : Nat) {t : T} (hpos : 0 < t)
    (hlt : t < cfg.dt) : ((cfg.scheduleInitialEvents draws).countP fun e =>
      decide (e.eventType = .midpriceMove) ∧ e.timestamp < k * cfg.dt + t) =
        min cfg.steps.toNat (k + 1) := by
  rw [scheduleInitialEvents, List.countP_flatMap, ← sum_range_le]
  exact congrArg List.sum (List.map_congr_left fun step _ => countP_scheduleStep hpos hlt step)

/-- Besides the scheduled ones no price moves are pushed. -/
theorem OnlyNoise.moves_before {s : EventLoop.State Int (Event T)} (h : cfg.OnlyNoise draws s)
    (k : Nat) {t : T} (hpos : 0 < t) (hlt : t < cfg.dt) :
    (s.pushed.countP fun e =>
      decide (e.eventType = .midpriceMove) ∧ e.timestamp < k * cfg.dt + t) =
        min cfg.steps.toNat (k + 1) := by
  obtain ⟨pushed, hpushed, hnoise⟩ := h
  rw [hpushed, List.countP_append, ScheduleConfig.moves_before draws k hpos hlt,
    List.countP_eq_zero.mpr, Nat.add_zero]
  intro e he
  simp [(hnoise e he).1]

/-- No price move comes at a time within a step. -/
theorem OnlyNoise.time_ne {s : EventLoop.State Int (Event T)} (h : cfg.OnlyNoise draws s)
    (k : Nat) {t : T} (hpos : 0 < t) (hlt : t < cfg.dt) {e : Event T} (he : e ∈ s.pushed)
    (hmove : e.eventType = .midpriceMove) : e.timestamp ≠ k * cfg.dt + t := by
  obtain ⟨pushed, hpushed, hnoise⟩ := h
  rw [hpushed] at he
  rcases List.mem_append.mp he with he | he
  · obtain ⟨step, -, hscheduled⟩ := mem_scheduleInitialEvents.mp he
    rw [time_of_move hscheduled hmove]
    exact (step_lt_iff hpos hlt).2
  · rw [(hnoise e he).1] at hmove
    cases hmove

/-- Without a spike the latency arbitrageur is faster than the market maker can be. -/
theorem arb_before_marketMaker (hjitter : Jittered draws) {step : Nat}
    (hspike : 1 / 1000 ≤ (draws step .latArb).spike) :
    (cfg.turn draws step latArb).timestamp < (cfg.turn draws step marketMaker).timestamp := by
  obtain ⟨-, -, hfast⟩ := sampleSeconds_bounds 50 (hjitter step).1 (by norm_num)
  obtain ⟨hslow, -, -⟩ := sampleSeconds_bounds 200 (hjitter step).2 (by norm_num)
  have hgap : ((50 : T) + 10) / 1000000 < (200 - 50) / 1000000 := by norm_num
  exact add_lt_add_right (((hfast hspike).trans_lt hgap).trans_le hslow) _

end Latency

end ScheduleConfig

/-- With steps of more than 0.6 ms, whenever the main loop comes to a turn of the latency
arbitrageur, the turn is that of a step whose price move is the last one processed, and unless
its latency spiked the market maker's turn of this step is still pending. -/
theorem latency_arb_acts_first {T : Type} [Field T] [LinearOrder T] [IsStrictOrderedRing T]
    (cfg : ScheduleConfig T) (hdt : 6 / 10000 < cfg.dt) (draws : Nat → AgentId → LatencyDraw T)
    (hjitter : ScheduleConfig.Jittered draws) (actions : List (Event T × List (LatencyDraw T)))
    (s s' : EventLoop.State Int (Event T))
    (hrun : Machine.run cfg.iterate (cfg.start draws) actions = some s) (event : Event T)
    (extra : List (LatencyDraw T)) (hstep : cfg.iterate s (event, extra) = some s')
    (hagent : event.agentId = some .latArb) :
    ∃ step < cfg.steps.toNat, event = cfg.turn draws step ScheduleConfig.latArb ∧
      s.inner = step + 1 ∧
      (1 / 1000 ≤ (draws step .latArb).spike →
        cfg.turn draws step ScheduleConfig.marketMaker ∈ s.queue) := by
  have hconserved := EventLoop.conserved _ _ hrun
  have hordered := EventLoop.ordered
    (fun x e d e' he' => (cfg.processEvent_pushes x e d e' he').2.2) _ _ hrun
  have hcounted : cfg.Counted s := Machine.run_invariant cfg.Counted
    ScheduleConfig.Counted.iterate ⟨rfl, cfg.moves_scheduleInitialEvents draws⟩ hrun
  have hnoise : cfg.OnlyNoise draws s := Machine.run_invariant (cfg.OnlyNoise draws)
    ScheduleConfig.OnlyNoise.iterate
    ⟨[], (List.append_nil _).symm, fun e he => absurd he List.not_mem_nil⟩ hrun
  have hmem : event ∈ s.pushed := hconserved.mem_iff.mpr
    (List.mem_append_right _ (EventLoop.step_cases hstep).1)
  obtain ⟨step, hlt, rfl⟩ := hnoise.arb_turn hmem hagent
  obtain ⟨hpos, hshort⟩ := ScheduleConfig.arb_latency hjitter hdt step
  refine ⟨step, hlt, rfl, ?_, fun hspike => ?_⟩
  · -- the price moves processed are those that are earlier than the turn
    have hcount := EventLoop.countP_processed hconserved hordered hstep
      (fun e => decide (e.eventType = .midpriceMove)) fun e he hmove =>
        hnoise.time_ne step hpos hshort he (of_decide_eq_true hmove)
    have hbefore := hnoise.moves_before step hpos hshort
    have hmin : min cfg.steps.toNat (step + 1) = step + 1 := by omega
    rw [hmin] at hbefore
    rw [hcounted.processed, ScheduleConfig.moves, hcount]
    exact_mod_cast hbefore
  · refine EventLoop.mem_queue_of_later hconserved hordered hstep ?_
      (ScheduleConfig.arb_before_marketMaker hjitter hspike)
    obtain ⟨pushed, hpushed, -⟩ := hnoise
    rw [hpushed]
    refine List.mem_append_left _ (ScheduleConfig.mem_scheduleInitialEvents.mpr ⟨step, hlt, ?_⟩)
    exact cfg.turn_mem_scheduleStep draws step List.mem_cons_self

/-- The latency arbitrageur's turn in a run of one step. -/
theorem latency_arb_acts_first_one_step : ∃ s, Machine.run oneStep.iterate
      (oneStep.start fun _ _ => ⟨0, 1⟩) (oneStepEvents.take 2) = some s ∧ s.inner = 1 ∧
    oneStep.turn (fun _ _ => ⟨0, 1⟩) 0 ScheduleConfig.marketMaker ∈ s.queue := by
  have hruns : ((Machine.run oneStep.iterate (oneStep.start fun _ _ => ⟨0, 1⟩)
      (oneStepEvents.take 2)).bind fun s =>
        oneStep.iterate s (⟨1 / 20000, .agentAction, some .latArb⟩, [])).isSome = true := by
    decide +kernel
  obtain ⟨s', hsome⟩ := Option.isSome_iff_exists.mp hruns
  obtain ⟨s, hrun, hstep⟩ := Option.bind_eq_some_iff.mp hsome
  obtain ⟨step, hlt, -, hinner, hpending⟩ := latency_arb_acts_first oneStep (by decide +kernel)
    (fun _ _ => ⟨0, 1⟩) (fun _ => by norm_num) _ s s' hrun _ _ hstep rfl
  have hone : oneStep.steps.toNat = 1 := rfl
  obtain rfl : step = 0 := by omega
  exact ⟨s, hrun, hinner, hpending (by norm_num)⟩

end LiquidityArena

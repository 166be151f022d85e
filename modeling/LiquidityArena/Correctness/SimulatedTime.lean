import LiquidityArena.Simulation.EventQueue

/-!
# Simulated time and the events of a run

Latencies are not negative, so processing pushes nothing into the past, and only price
moves push events, none of which is a price move. The rules for event loops then give the
order of time, that no event is lost and that the loop ends; the price moves that were
scheduled are counted.
-/

namespace LiquidityArena

namespace ScheduleConfig

variable {T : Type} [Field T] [LinearOrder T]

/-- How many events are price moves. -/
def moves (events : List (Event T)) : Nat := events.countP (·.eventType = .midpriceMove)

section Latency

variable [IsStrictOrderedRing T]

private theorem sampleSeconds_nonneg (latency : Latency T) (draw : LatencyDraw T) :
    0 ≤ latency.sampleSeconds draw := by
  cases latency with
  | model config => exact div_nonneg (le_max_left _ _) (by norm_num)
  | zero => exact le_rfl

/-- What processing pushes: turns, not before the event, and only if it is a price move. -/
theorem processEvent_pushes (cfg : ScheduleConfig T) (stepCount : Int) (event : Event T)
    (extra : List (LatencyDraw T)) : ∀ e ∈ (cfg.processEvent stepCount event extra).2,
      event.eventType = .midpriceMove ∧ e.eventType = .agentAction ∧
        event.timestamp ≤ e.timestamp := by
  intro e he
  rw [processEvent] at he
  split at he
  next hmove =>
    split_ifs at he
    · split at he
      · cases he
      next latency _ =>
        obtain ⟨draw, -, rfl⟩ := List.mem_map.mp he
        exact ⟨hmove, rfl, le_add_of_nonneg_right (sampleSeconds_nonneg latency draw)⟩
    · cases he
  · cases he

end Latency

private theorem processEvent_stepCount (cfg : ScheduleConfig T) (stepCount : Int) (event : Event T)
    (extra : List (LatencyDraw T)) :
    (cfg.processEvent stepCount event extra).1 = stepCount + moves [event] := by
  rw [processEvent, moves, List.countP_singleton]
  split
  next hmove => simp [hmove]
  next hother => simpa using hother

/-- A step schedules one price move. -/
theorem moves_scheduleStep (cfg : ScheduleConfig T) (draws : Nat → AgentId → LatencyDraw T)
    (step : Nat) : moves (cfg.scheduleStep draws step) = 1 := by
  have hturns : moves (cfg.agents.map fun agent =>
      { timestamp := step * cfg.dt + agent.2.sampleSeconds (draws step agent.1)
        eventType := .agentAction
        agentId := some agent.1 }) = 0 := by
    rw [moves, List.countP_eq_zero]
    intro e he
    obtain ⟨agent, -, rfl⟩ := List.mem_map.mp he
    simp
  rw [moves] at hturns ⊢
  rw [scheduleStep, List.cons_append, List.countP_cons, List.countP_append, hturns]
  by_cases hsample : step % 100 = 0
  · simp [hsample]
  · simp [hsample]

/-- The schedule holds one price move a step. -/
theorem moves_scheduleInitialEvents (cfg : ScheduleConfig T)
    (draws : Nat → AgentId → LatencyDraw T) :
    moves (cfg.scheduleInitialEvents draws) = cfg.steps.toNat := by
  have hone : List.countP (·.eventType = .midpriceMove) ∘ cfg.scheduleStep draws = fun _ => 1 :=
    funext (cfg.moves_scheduleStep draws)
  rw [moves, scheduleInitialEvents, List.countP_flatMap, hone]
  simp

/-- The steps counted are the price moves processed, and those ever pushed are the scheduled ones. -/
structure Counted (cfg : ScheduleConfig T) (s : EventLoop.State Int (Event T)) : Prop where
  processed : s.inner = moves s.processed
  pushed : moves s.pushed = cfg.steps.toNat

variable [IsStrictOrderedRing T] {cfg : ScheduleConfig T} {s s' : EventLoop.State Int (Event T)}
  {a : Event T × List (LatencyDraw T)}

/-- One iteration keeps the count of price moves. -/
theorem Counted.iterate (h : cfg.Counted s) (hstep : cfg.iterate s a = some s') :
    cfg.Counted s' := by
  obtain ⟨-, -, rfl⟩ := EventLoop.step_cases hstep
  have hnone : moves (cfg.processEvent s.inner a.1 a.2).2 = 0 := by
    rw [moves, List.countP_eq_zero]
    intro e he
    rw [(cfg.processEvent_pushes s.inner a.1 a.2 e he).2.1]
    decide
  refine ⟨?_, ?_⟩
  · rw [processEvent_stepCount, h.processed, moves, moves, moves, List.countP_append]
    push_cast
    rfl
  · rw [← h.pushed, ← Nat.add_zero (moves s.pushed), ← hnone]
    exact List.countP_append

end ScheduleConfig

/-- In every run of the main loop the timestamps do not decrease, every event pushed has been
processed once or is pending once, and the loop goes on as long as one is pending, whatever the
samplers return; the loop ends, and then all scheduled steps have been counted. -/
theorem simulation_drains_in_order {T : Type} [Field T] [LinearOrder T] [IsStrictOrderedRing T]
    (cfg : ScheduleConfig T) (draws : Nat → AgentId → LatencyDraw T) :
    (∀ (actions : List (Event T × List (LatencyDraw T))) (s : EventLoop.State Int (Event T)),
      Machine.run cfg.iterate (cfg.start draws) actions = some s →
        (s.processed.map Event.timestamp).Pairwise (· ≤ ·) ∧
        s.pushed.Perm (s.processed ++ s.queue) ∧
        (s.queue ≠ [] → ∀ extra, ∃ event s', cfg.iterate s (event, extra) = some s') ∧
        (s.queue = [] → s.inner = max 0 cfg.steps)) ∧
      ∀ f : Nat → EventLoop.State Int (Event T), f 0 = cfg.start draws →
        EventLoop.Execution Event.timestamp cfg.processEvent f → ∃ n actions,
          Machine.run cfg.iterate (cfg.start draws) actions = some (f n) ∧ (f n).queue = [] := by
  refine ⟨fun actions s hrun => ?_, fun f hstart hf => ?_⟩
  · have hconserved := EventLoop.conserved _ _ hrun
    have hordered := EventLoop.ordered
      (fun x e d e' he' => (cfg.processEvent_pushes x e d e' he').2.2) _ _ hrun
    have hcounted : cfg.Counted s := Machine.run_invariant cfg.Counted
      ScheduleConfig.Counted.iterate ⟨rfl, cfg.moves_scheduleInitialEvents draws⟩ hrun
    refine ⟨hordered.processed, hconserved, EventLoop.progress, fun hempty => ?_⟩
    -- every price move pushed has been processed
    rw [EventLoop.Conserved, hempty, List.append_nil] at hconserved
    have hmoves := hconserved.countP_eq fun e : Event T => decide (e.eventType = .midpriceMove)
    have hprocessed := hcounted.processed
    have hpushed := hcounted.pushed
    rw [ScheduleConfig.moves] at hprocessed hpushed
    omega
  · rw [← hstart]
    refine EventLoop.ends (fun e => if e.eventType = .midpriceMove then 1 else 0)
      (fun x e d e' he' => ?_) hf
    obtain ⟨hmove, hturn, -⟩ := cfg.processEvent_pushes x e d e' he'
    rw [hmove, hturn]
    decide

/-- One step, with one noise trader. -/
def oneStep : ScheduleConfig ℚ := ⟨1, 1 / 1000, 1, true⟩

/-- The events of one step, and an extra one that is late because of a spike. -/
def oneStepEvents : List (Event ℚ × List (LatencyDraw ℚ)) :=
  [(⟨0, .midpriceMove, none⟩, [⟨100, 0⟩]), (⟨0, .agentAction, some .human⟩, []),
    (⟨1 / 20000, .agentAction, some .latArb⟩, []), (⟨1 / 5000, .agentAction, some .mm⟩, []),
    (⟨1 / 2000, .metricsSample, none⟩, []), (⟨1 / 2000, .agentAction, some .informed⟩, []),
    (⟨1 / 1000, .agentAction, some .momentum⟩, []),
    (⟨1 / 1000, .agentAction, some (.noise 0)⟩, []),
    (⟨11 / 1000, .agentAction, some (.noise 0)⟩, [])]

/-- The one-step run drains its queue. -/
theorem simulation_drains_one_step : ∃ s, Machine.run oneStep.iterate
      (oneStep.start fun _ _ => ⟨0, 1⟩) oneStepEvents = some s ∧
    s.inner = 1 ∧ s.pushed.Perm s.processed := by
  have hruns : (Machine.run oneStep.iterate (oneStep.start fun _ _ => ⟨0, 1⟩)
      oneStepEvents).map (·.queue) = some [] := by
    decide +kernel
  obtain ⟨s, hrun, hempty⟩ := Option.map_eq_some_iff.mp hruns
  obtain ⟨-, hperm, -, hsteps⟩ := (simulation_drains_in_order oneStep _).1 _ s hrun
  rw [hempty, List.append_nil] at hperm
  exact ⟨s, hrun, hsteps hempty, hperm⟩

/-- A negative number of steps is not counted to. -/
theorem negative_steps_not_counted : ∃ s, Machine.run
      (ScheduleConfig.iterate (⟨-1, 1 / 1000, 3, true⟩ : ScheduleConfig ℚ))
      (ScheduleConfig.start ⟨-1, 1 / 1000, 3, true⟩ fun _ _ => ⟨0, 1⟩) [] = some s ∧
    s.queue = [] ∧ s.inner = 0 ∧
    s.inner ≠ (⟨-1, 1 / 1000, 3, true⟩ : ScheduleConfig ℚ).steps :=
  ⟨_, rfl, rfl, rfl, by decide⟩

end LiquidityArena

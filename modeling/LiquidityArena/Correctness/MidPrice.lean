import LiquidityArena.Correctness.OrderTraffic
import LiquidityArena.Correctness.PricePaths

/-!
# The mid price in the main loop

Only price moves and two scenarios of the frontend have an effect on the mid price. So in
every run it is what the price process makes of them, and crashes lower it by a fixed
amount each, whatever the agents and the engine do.
-/

namespace LiquidityArena

variable {T : Type} [TimeField T] [LinearOrder T]

/-- What a message of the frontend does to the price. -/
def FrontendMessage.priceEvent? : FrontendMessage → Option PriceEvent
  | .flashCrash => some .flashCrash
  | .volSpike => some .volSpike
  | _ => none

/-- What happens to the price in a pass of the main loop, in that order. -/
def priceEvents {T : Type} (pass : Event T × ArenaInput T) : List PriceEvent :=
  pass.2.frontend.filterMap FrontendMessage.priceEvent? ++
    if pass.1.eventType = .midpriceMove then [.move pass.2.price] else []

namespace Arena

variable {T : Type} {cfg : ArenaConfig T} {s s' : Arena T}

/-- The mid price and the process behind it. -/
def price (s : Arena T) : Int × PriceProcess := (s.currentMid, s.process)

private theorem price_receiveAll (messages : List TcpClient.Message) (s : Arena T) :
    (messages.foldl receive s).price = s.price := by
  induction messages generalizing s with
  | nil => rfl
  | cons message messages ih =>
    rw [List.foldl_cons, ih]
    cases message <;> rfl

private theorem price_processIncoming (cfg : ArenaConfig T) (s : Arena T)
    (message : FrontendMessage) :
    (s.processIncoming message).price =
      (message.priceEvent?.toList).foldl (PriceProcess.track cfg.exp) s.price := by
  cases message with
  | whaleBuy socket =>
    rw [processIncoming]
    split_ifs <;> rfl
  | _ => rfl

private theorem price_processIncomings (messages : List FrontendMessage) (s : Arena T) :
    (messages.foldl processIncoming s).price =
      (messages.filterMap FrontendMessage.priceEvent?).foldl (PriceProcess.track cfg.exp)
        s.price := by
  induction messages generalizing s with
  | nil => rfl
  | cons message messages ih =>
    rw [List.foldl_cons, ih, price_processIncoming cfg, List.filterMap_cons]
    cases message.priceEvent? <;> rfl

/-- An agent's turn leaves the price alone. -/
theorem price_agentAction {id : AgentId} {input : ArenaInput T}
    (haction : s.agentAction cfg id input = some s') : s'.price = s.price := by
  rcases agentAction_cases haction with
    rfl | ⟨update, agent, agent', orders, -, -, -, ⟨-, rfl⟩ | ⟨-, calls, -, -, rfl⟩⟩
  · rfl
  · rfl
  · rw [price_receiveAll]
    rfl

private theorem price_processEvent {event : Event T} {input : ArenaInput T}
    (hevent : s.processEvent cfg event input = some s') :
    s'.price = (if event.eventType = .midpriceMove then [.move input.price] else []).foldl
      (PriceProcess.track cfg.exp) s.price := by
  rw [processEvent] at hevent
  cases hkind : event.eventType with
  | midpriceMove =>
    rw [hkind] at hevent
    obtain rfl := Option.some.inj hevent
    rfl
  | agentAction =>
    rw [hkind] at hevent
    dsimp only at hevent
    split at hevent
    · obtain rfl := Option.some.inj hevent
      rfl
    · exact price_agentAction hevent
  | metricsSample =>
    rw [hkind] at hevent
    obtain rfl := Option.some.inj hevent
    rw [metricsSample]
    split <;> rfl
  | orderCancel =>
    rw [hkind] at hevent
    obtain rfl := Option.some.inj hevent
    rfl
  | bookUpdate =>
    rw [hkind] at hevent
    obtain rfl := Option.some.inj hevent
    rfl

end Arena

namespace ArenaConfig

variable {cfg : ArenaConfig T} {s s' : Arena T}

/-- A pass of the main loop does to the price what its events do. -/
theorem price_handle {event : Event T} {input : ArenaInput T}
    (hpass : (cfg.handle (some s) event input).1 = some s') :
    s'.price = (priceEvents (event, input)).foldl (PriceProcess.track cfg.exp) s.price := by
  have hevent : Arena.processEvent cfg { input.frontend.foldl Arena.processIncoming s with
      currentTime := event.timestamp } event input = some s' := hpass
  -- the clock is no part of the price
  have hprice := Arena.price_processEvent hevent
  rw [priceEvents, List.foldl_append, ← Arena.price_processIncomings]
  exact hprice

/-- A run that has not ended with an error does to the price what the events of its passes do. -/
theorem price_run {actions : List (Event T × ArenaInput T)}
    {st st' : EventLoop.State (Option (Arena T)) (Event T)}
    (hrun : Machine.run cfg.iterate st actions = some st') (hinner : st'.inner = some s') :
    ∃ s, st.inner = some s ∧
      s'.price = (actions.flatMap priceEvents).foldl (PriceProcess.track cfg.exp) s.price := by
  induction actions generalizing st with
  | nil =>
    obtain rfl := Option.some.inj hrun
    exact ⟨s', hinner, rfl⟩
  | cons a actions ih =>
    obtain ⟨next, hstep, hrest⟩ := Option.bind_eq_some_iff.mp hrun
    obtain ⟨s₁, hs₁, hprice⟩ := ih hrest
    obtain ⟨-, -, rfl⟩ := EventLoop.step_cases hstep
    cases hst : st.inner with
    | none =>
      rw [hst] at hs₁
      cases hs₁
    | some s =>
      rw [hst] at hs₁
      refine ⟨s, rfl, ?_⟩
      rw [hprice, price_handle hs₁, List.flatMap_cons, List.foldl_append]

end ArenaConfig

/-- In every run the mid price of a mean-reverting process is lower by 100 for each flash crash than
what the process makes of the same events without the crashes, whatever else happens. -/
theorem flash_crashes_lower_mid (cfg : ArenaConfig T) (hp : cfg.process.MeanReverting)
    (connected : Bool) (draws : Nat → AgentId → LatencyDraw T)
    (actions : List (Event T × ArenaInput T)) (st : EventLoop.State (Option (Arena T)) (Event T))
    (hrun : Machine.run cfg.iterate (cfg.start connected draws) actions = some st)
    (s : Arena T) (hinner : st.inner = some s) :
    let events := actions.flatMap priceEvents
    s.currentMid = ((events.filter (· ≠ .flashCrash)).foldl (PriceProcess.track cfg.exp)
      (cfg.process.initialPrice, cfg.process)).1 - 100 * events.count .flashCrash := by
  intro events
  obtain ⟨s₀, hs₀, hprice⟩ := ArenaConfig.price_run hrun hinner
  obtain rfl := Option.some.inj hs₀
  have hmean : (cfg.process.initialPrice, cfg.process).2.MeanReverting := hp
  have hshifted := PriceProcess.foldl_track_shifted cfg.exp hmean events 0
  rw [mul_zero, PriceProcess.shifted, PriceProcess.lowered_zero, sub_zero, zero_add] at hshifted
  have hmid : s.currentMid = _ := congrArg Prod.fst (hprice.trans hshifted)
  rw [hmid, PriceProcess.shifted]
  dsimp only
  ring

/-- A price move between two crashes, the first of them with a spike of the volatility. -/
def crashes : List (Event ℚ × ArenaInput ℚ) :=
  [(⟨0, .midpriceMove, none⟩,
      { oneInput [.flashCrash, .volSpike] [] with price := ⟨1 / 100, 1, .calm, true⟩ }),
    (⟨0, .agentAction, some .human⟩, oneInput [.flashCrash, .marketOrder .bid 5] [])]

/-- Two crashes take 200 off the path without them, on the first arena. -/
theorem flash_crashes_lower_mid_twice : ∃ st s,
    Machine.run oneArena.iterate (oneArena.start true fun _ _ => ⟨0, 1⟩) crashes = some st ∧
      st.inner = some s ∧ s.currentMid = 9802 ∧
      s.currentMid = (((crashes.flatMap priceEvents).filter (· ≠ .flashCrash)).foldl
        (PriceProcess.track oneArena.exp) (10000, .ou {})).1 -
          100 * (crashes.flatMap priceEvents).count .flashCrash := by
  have hruns : ((Machine.run oneArena.iterate (oneArena.start true fun _ _ => ⟨0, 1⟩)
      crashes).bind (·.inner)).map (·.currentMid) = some 9802 := by
    decide +kernel
  obtain ⟨s, hs, hmid⟩ := Option.map_eq_some_iff.mp hruns
  obtain ⟨st, hrun, hinner⟩ := Option.bind_eq_some_iff.mp hs
  exact ⟨st, s, hrun, hinner, hmid, flash_crashes_lower_mid oneArena trivial true
    (fun _ _ => ⟨0, 1⟩) crashes st hrun s hinner⟩

/-- In every run the mid price of an OU process that starts within a band around its mean stays
there, but for the rounding of a tick, as long as no shock is larger than the pull at the edge
of the band; crashes move the band, and spikes triple the shocks. -/
theorem ou_mid_stays_in_band (cfg : ArenaConfig T) (q : OUProcess) (hq : cfg.process = .ou q)
    (radius : ℚ) (hone : q.kappa * q.dt ≤ 1) (hfresh : q.currentPrice = q.initialPrice)
    (hstart : |(q.initialPrice : ℚ) - q.theta| ≤ radius) (connected : Bool)
    (draws : Nat → AgentId → LatencyDraw T) (actions : List (Event T × ArenaInput T))
    (hshock : ∀ before move rest, actions.flatMap priceEvents = before ++ .move move :: rest →
      |q.sigma * 3 ^ before.count .volSpike * move.dw| ≤ q.kappa * q.dt * radius)
    (st : EventLoop.State (Option (Arena T)) (Event T))
    (hrun : Machine.run cfg.iterate (cfg.start connected draws) actions = some st)
    (s : Arena T) (hinner : st.inner = some s) :
    |(s.currentMid : ℚ) - (q.theta - 100 * (actions.flatMap priceEvents).count .flashCrash)| ≤
      radius + 1 / 2 := by
  obtain ⟨s₀, hs₀, hprice⟩ := ArenaConfig.price_run hrun hinner
  obtain rfl := Option.some.inj hs₀
  have hinitial : (cfg.arena connected).price = (q.initialPrice, .ou q) := by
    rw [Arena.price, ArenaConfig.arena, hq]
    rfl
  rw [hinitial] at hprice
  have hband : PriceProcess.InBand q 0 0 radius (q.initialPrice, .ou q) := by
    constructor
    · exact ⟨q.currentPrice, by simp, by simpa [hfresh] using hstart⟩
    · simpa using hstart.trans (le_add_of_nonneg_right (by norm_num))
  have hstays := PriceProcess.inBand_foldl cfg.exp hone hband _ hshock
  rw [← hprice] at hstays
  exact hstays.mid

/-- The band of that run, whose two crashes and spike leave it around 9800. -/
theorem ou_mid_stays_in_band_after_spike : ∃ st s,
    Machine.run oneArena.iterate (oneArena.start true fun _ _ => ⟨0, 1⟩) crashes = some st ∧
      st.inner = some s ∧ |(s.currentMid : ℚ) - 9800| ≤ 3000 + 1 / 2 := by
  have hruns : ((Machine.run oneArena.iterate (oneArena.start true fun _ _ => ⟨0, 1⟩)
      crashes).bind (·.inner)).isSome = true := by
    decide +kernel
  obtain ⟨s, hs⟩ := Option.isSome_iff_exists.mp hruns
  obtain ⟨st, hrun, hinner⟩ := Option.bind_eq_some_iff.mp hs
  have hevents : crashes.flatMap priceEvents =
      [.flashCrash, .volSpike, .move ⟨1 / 100, 1, .calm, true⟩, .flashCrash] := rfl
  have hband := ou_mid_stays_in_band oneArena {} rfl 3000 (by norm_num) rfl (by norm_num) true
    (fun _ _ => ⟨0, 1⟩) crashes ?_ st hrun s hinner
  · refine ⟨st, s, hrun, hinner, ?_⟩
    have hmean : (10000 : ℚ) - 100 * (2 : Nat) = 9800 := by norm_num
    rw [← hmean]
    exact hband
  · rw [hevents]
    intro before move rest heq
    -- the only move comes after one spike
    obtain ⟨rfl, rfl⟩ : before = [.flashCrash, .volSpike] ∧
        move = ⟨1 / 100, 1, .calm, true⟩ := by
      match before, heq with
      | [], heq => simp at heq
      | [_], heq => simp at heq
      | [_, _], heq => simp_all
      | [_, _, _], heq => simp at heq
      | _ :: _ :: _ :: _ :: _, heq => simp at heq
    have hspikes : [PriceEvent.flashCrash, .volSpike].count .volSpike = 1 := rfl
    rw [hspikes]
    norm_num

end LiquidityArena

import LiquidityArena.Lib.EventLoop

/-!
# The simulator's event queue

All price moves, the agents' turns and the metrics samples are scheduled before the loop
starts, and a price move schedules more turns of the first noise trader. Timestamps are
taken from any ordered field. What the random generators return is arbitrary, and so is
which of the earliest events the heap returns. What happens inside a turn pushes no events
and is left out.
-/

namespace LiquidityArena

/-- The arithmetic of timestamps and latencies. -/
abbrev TimeField (T : Type) := Field T

/-- The kinds of events; only three of them are ever pushed. -/
inductive EventType where
  | midpriceMove
  | agentAction
  | orderCancel
  | bookUpdate
  | metricsSample
  deriving DecidableEq, Repr

/-- The keys of the agents. -/
inductive AgentId where
  | mm
  | noise (i : Nat)
  | informed
  | momentum
  | latArb
  | human
  deriving DecidableEq, Repr

/-- A timestamped simulation event. -/
structure Event (T : Type) where
  timestamp : T
  eventType : EventType
  agentId : Option AgentId := none
  deriving DecidableEq, Repr

/-- Latency configuration in microseconds; the width of the jitter is left out, since the jitter
drawn is arbitrary. -/
structure LatencyConfig (T : Type) where
  baseUs : T
  spikeProb : T
  spikeFactor : T

/-- What the generator of a latency model returns: the jitter, and the draw that decides about
a spike. -/
structure LatencyDraw (T : Type) where
  jitter : T
  spike : T

/-- An agent's latency: a model, or none at all for the human. -/
inductive Latency (T : Type) where
  | model (config : LatencyConfig T)
  | zero

/-- The part of the configuration that the schedule depends on. -/
structure ScheduleConfig (T : Type) where
  steps : Int
  dt : T
  numNoise : Int
  hawkes : Bool

section Schedule

variable {T : Type} [Field T] [LinearOrder T]

/-- Sample a latency value in microseconds. -/
def LatencyConfig.sample (config : LatencyConfig T) (draw : LatencyDraw T) : T :=
  let delay := config.baseUs + draw.jitter
  max 0 (if draw.spike < config.spikeProb then delay * config.spikeFactor else delay)

/-- Sample latency in seconds. -/
def Latency.sampleSeconds (draw : LatencyDraw T) : Latency T → T
  | .model config => config.sample draw / 1000000
  | .zero => 0

/-- A latency model with the default spikes. -/
def latencyModel (baseUs : T) : Latency T := .model ⟨baseUs, 1 / 1000, 10⟩

namespace ScheduleConfig

/-- The agents and their latencies, in the order in which they are created. -/
def agents (cfg : ScheduleConfig T) : List (AgentId × Latency T) :=
  (.mm, latencyModel 200) ::
    (List.range cfg.numNoise.toNat).map (fun i => (AgentId.noise i, latencyModel 1000)) ++
    [(.informed, latencyModel 500), (.momentum, latencyModel 1000), (.latArb, latencyModel 50),
      (.human, .zero)]

/-- The latency arbitrageur and the market maker, with their latencies. -/
def latArb : AgentId × Latency T := (.latArb, latencyModel 50)

@[inherit_doc latArb]
def marketMaker : AgentId × Latency T := (.mm, latencyModel 200)

/-- The jitter of these two agents is within the width of its distribution. -/
def Jittered (draws : Nat → AgentId → LatencyDraw T) : Prop :=
  ∀ step, |(draws step .latArb).jitter| ≤ 10 ∧ |(draws step .mm).jitter| ≤ 50

/-- The events of one step: the price move, a turn of every agent, and every 100 steps a sample. -/
def scheduleStep (cfg : ScheduleConfig T) (draws : Nat → AgentId → LatencyDraw T) (step : Nat) :
    List (Event T) :=
  let t := step * cfg.dt
  { timestamp := t, eventType := .midpriceMove } ::
    (cfg.agents.map fun agent =>
      { timestamp := t + agent.2.sampleSeconds (draws step agent.1)
        eventType := .agentAction
        agentId := some agent.1 }) ++
    if step % 100 = 0 then [{ timestamp := t + cfg.dt * (1 / 2), eventType := .metricsSample }]
    else []

/-- Schedule the initial burst of events that kicks off the simulation. -/
def scheduleInitialEvents (cfg : ScheduleConfig T) (draws : Nat → AgentId → LatencyDraw T) :
    List (Event T) :=
  (List.range cfg.steps.toNat).flatMap (cfg.scheduleStep draws)

/-- Process a single event: the new step count and the events that are pushed. There is one draw
for each extra event of the Hawkes process. -/
def processEvent (cfg : ScheduleConfig T) (stepCount : Int) (event : Event T)
    (extra : List (LatencyDraw T)) : Int × List (Event T) :=
  match event.eventType with
  | .midpriceMove =>
    (stepCount + 1,
      if cfg.hawkes then
        match cfg.agents.lookup (.noise 0) with
        | none => []
        | some latency => extra.map fun draw =>
            { timestamp := event.timestamp + latency.sampleSeconds draw
              eventType := .agentAction
              agentId := some (.noise 0) }
      else [])
  | _ => (stepCount, [])

/-- The main loop before its first event. -/
def start (cfg : ScheduleConfig T) (draws : Nat → AgentId → LatencyDraw T) :
    EventLoop.State Int (Event T) :=
  EventLoop.start 0 (cfg.scheduleInitialEvents draws)

/-- An iteration of the main loop: the current time is set to the timestamp of the event popped,
and the event is processed. -/
def iterate (cfg : ScheduleConfig T) :=
  EventLoop.step Event.timestamp cfg.processEvent

end ScheduleConfig

end Schedule

end LiquidityArena

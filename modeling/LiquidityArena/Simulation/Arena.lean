import LiquidityArena.Simulation.EventQueue
import LiquidityArena.Simulation.LatencyArb
import LiquidityArena.Simulation.Metrics
import LiquidityArena.Simulation.PriceProcess
import LiquidityArena.Simulation.Simulator
import LiquidityArena.Simulation.Traders

/-!
# The simulator with all its agents

The main loop takes the messages of the frontend, pops an event and processes it: a price
move, an agent's turn or a sample of the metrics. What the random generators return, what
the frontend and the engine send and whether the socket takes a message are arguments of a
step. The frontend's view of the market is left out.
-/

namespace LiquidityArena

variable {T : Type} [TimeField T] [LinearOrder T]

/-- An agent of the simulation. -/
inductive Agent where
  | marketMaker (a : MarketMaker)
  | noise (a : NoiseTrader)
  | informed (a : InformedTrader)
  | momentum (a : MomentumTrader)
  | latArb (a : LatencyArb)
  | human (a : HumanAgent)

/-- What the generators return in a turn; an agent uses its own part. -/
structure AgentDraws where
  noise : NoiseDraws
  signal : SignalDraws
  arb : ArbDraws

/-- The configuration: the schedule, the price process and the parameters of the agents, of which
those of the market maker and the latency arbitrageur have to be positive. -/
structure ArenaConfig (T : Type) where
  schedule : ScheduleConfig T
  process : PriceProcess
  exp : ℚ → ℚ
  marketMaker : MarketMakerConfig
  noise : NoiseTraderConfig := {}
  informed : InformedTraderConfig := {}
  momentum : MomentumTraderConfig := {}
  latArb : LatencyArbConfig := {}

/-- The bytes of a message, if its fields fit. -/
def Sent.bytes : Sent → Option (List UInt8)
  | .cancel id => TcpClient.sendCancel id
  | .newOrder o =>
    TcpClient.sendNewOrder o.orderId o.side.code o.orderType.code o.price o.quantity 0

/-- Record a message that was sent. -/
def QuoteLog.record {T : Type} (m : QuoteLog T) (timestamp : T) : Sent → QuoteLog T
  | .cancel id => m.recordCancel id timestamp
  | .newOrder o => m.recordQuote { orderId := o.orderId, timestamp := timestamp }

namespace Agent

/-- What all agents share. -/
def base : Agent → BaseAgent
  | .marketMaker a => a.base
  | .noise a => a.base
  | .informed a => a.base
  | .momentum a => a.base
  | .latArb a => a.base
  | .human a => a.base

/-- Handle a fill notification. -/
def onFill (fill : TcpClient.FillMsg) : Agent → Agent
  | .marketMaker a => .marketMaker { a with base := a.base.onFill fill }
  | .noise a => .noise { a with base := a.base.onFill fill }
  | .informed a => .informed { a with base := a.base.onFill fill }
  | .momentum a => .momentum { a with base := a.base.onFill fill }
  | .latArb a => .latArb { a with base := a.base.onFill fill }
  | .human a => .human { a with base := a.base.onFill fill }

/-- Two kinds of agents are told the true price. -/
def setTruePrice (price : Int) : Agent → Agent
  | .informed a => .informed (a.setTruePrice price)
  | .latArb a => .latArb (a.setTruePrice price)
  | a => a

/-- The ids of stale orders that an agent has left behind. -/
def pendingCancels : Agent → List Int
  | .marketMaker a => a.pendingCancels.getD []
  | .human a => a.pendingCancels
  | _ => []

/-- Nothing is left behind any more. -/
def clearCancels : Agent → Agent
  | .marketMaker a => .marketMaker { a with pendingCancels := some [] }
  | .human a => .human { a with pendingCancels := [] }
  | a => a

/-- React to a book update. -/
def onBookUpdate {T : Type} (cfg : ArenaConfig T) (update : TcpClient.BookUpdateMsg) (step : Int)
    (draws : AgentDraws) : Agent → Option (List AgentOrder × Agent)
  | .marketMaker a => some ((a.onBookUpdate cfg.marketMaker update step).map id .marketMaker)
  | .noise a => (a.onBookUpdate cfg.noise update draws.noise).map (Prod.map id .noise)
  | .informed a => (a.onBookUpdate cfg.informed update draws.signal).map (Prod.map id .informed)
  | .momentum a => (a.onBookUpdate cfg.momentum update draws.signal).map (Prod.map id .momentum)
  | .latArb a => (a.onBookUpdate cfg.latArb update draws.arb).map (Prod.map id .latArb)
  | .human a => some ((a.onBookUpdate update).map id .human)

/-- A new agent. -/
def create (base : BaseAgent) : AgentId → Agent
  | .mm => .marketMaker { base := base }
  | .noise _ => .noise { base := base }
  | .informed => .informed { base := base }
  | .momentum => .momentum { base := base }
  | .latArb => .latArb { base := base }
  | .human => .human { base := base }

end Agent

/-- What the player and the scenarios of the frontend ask for; everything else is ignored. The whale
needs the socket. -/
inductive FrontendMessage where
  | marketOrder (side : AgentSide) (qty : Int)
  | limitOrder (side : AgentSide) (offset qty : Int)
  | cancelAll
  | flashCrash
  | whaleBuy (socket : Bool)
  | volSpike
  | ignored
  deriving DecidableEq, Repr

/-- An attempt to send a message, for an agent or for the whale, and whether it was sent. -/
structure SendCall (T : Type) where
  agent : Option AgentId
  timestamp : T
  message : Sent
  taken : Bool
  deriving DecidableEq

/-- The simulator, with all attempts to send a message so far. -/
structure Arena (T : Type) where
  agents : List (AgentId × Agent)
  connected : Bool
  process : PriceProcess
  currentMid : Int
  stepCount : Int
  currentTime : T
  lastBookUpdate : Option TcpClient.BookUpdateMsg
  metrics : MetricsEngine
  quotes : QuoteLog T
  calls : List (SendCall T)

/-- What comes from the outside during one pass of the main loop. -/
structure ArenaInput (T : Type) where
  frontend : List FrontendMessage
  price : PriceDraws
  extra : List (LatencyDraw T)
  agent : AgentDraws
  cancelSocket : Nat → Bool
  orderSocket : Nat → Bool
  messages : List TcpClient.Message

namespace Arena

section

variable {T : Type}

/-- Try to send a message; what was sent for an agent is recorded. -/
def send (s : Arena T) (agent : Option AgentId) (message : Sent) (socket : Bool) : Arena T :=
  let taken := message.bytes.isSome && socket
  { s with
    calls := s.calls ++ [⟨agent, s.currentTime, message, taken⟩]
    quotes :=
      if taken && agent.isSome then s.quotes.record s.currentTime message else s.quotes }

/-- Try to send messages for an agent one after the other. -/
def submit (s : Arena T) (id : AgentId) (messages : List Sent) (socket : Nat → Bool) : Arena T :=
  messages.zipIdx.foldl (fun s m => s.send (some id) m.1 (socket m.2)) s

/-- Send cancel requests to the engine for stale quotes. -/
def submitCancels (s : Arena T) (id : AgentId) (ids : List Int) (socket : Nat → Bool) : Arena T :=
  if s.connected then s.submit id (ids.map .cancel) socket else s

/-- Hand out a message: a snapshot is kept, a fill goes to all agents and is recorded. -/
def receive (s : Arena T) : TcpClient.Message → Arena T
  | .bookUpdate msg => { s with lastBookUpdate := some msg }
  | .fill msg =>
    let midAfter := match s.lastBookUpdate with
      | some update => (update.bestBid + update.bestAsk) / 2
      | none => s.currentMid
    { s with
      agents := s.agents.map fun entry => (entry.1, entry.2.onFill msg)
      metrics := s.metrics.recordFill
        { price := msg.price
          quantity := msg.quantity
          side := .bid
          isMaker := true
          midAtFill := s.currentMid
          midAfterFill := some midAfter } }

/-- Submit orders to the engine, then hand out the messages that have arrived. -/
def submitOrders (s : Arena T) (id : AgentId) (orders : List AgentOrder) (socket : Nat → Bool)
    (messages : List TcpClient.Message) : Arena T :=
  if s.connected then messages.foldl receive (s.submit id (orders.map .newOrder) socket) else s

/-- The agent behind a key is replaced. -/
def setAgent (s : Arena T) (id : AgentId) (a : Agent) : Arena T :=
  { s with agents := s.agents.map fun entry => if entry.1 = id then (id, a) else entry }

/-- Send the cancels an agent has left behind, if there are any. -/
def flushCancels (s : Arena T) (id : AgentId) (a : Agent) (socket : Nat → Bool) : Arena T :=
  if a.pendingCancels = [] then s
  else (s.submitCancels id a.pendingCancels socket).setAgent id a.clearCancels

/-- An agent's turn; `none` when it raises an error. -/
def agentAction (cfg : ArenaConfig T) (s : Arena T) (id : AgentId) (input : ArenaInput T) :
    Option (Arena T) :=
  match s.lastBookUpdate with
  | none => some s
  | some update =>
    match s.agents.lookup id with
    | none => some s
    | some agent =>
      (agent.onBookUpdate cfg update s.stepCount input.agent).map fun (orders, agent') =>
        ((s.setAgent id agent').flushCancels id agent' input.cancelSocket).submitOrders id orders
          input.orderSocket input.messages

/-- The human's part of a message of the frontend. -/
def mapHuman (s : Arena T) (f : HumanAgent → HumanAgent) : Arena T :=
  { s with agents := s.agents.map fun entry =>
      match entry.2 with
      | .human a => (entry.1, .human (f a))
      | _ => entry }

/-- Take in a message of the frontend. -/
def processIncoming (s : Arena T) : FrontendMessage → Arena T
  -- the import that would force the human's turn fails, so its orders wait for the next one
  | .marketOrder side qty => s.mapHuman (·.placeMarketOrder side qty)
  | .limitOrder side offset qty => s.mapHuman (·.placeLimitOrder side offset qty)
  | .cancelAll => s.mapHuman (·.cancelAllQuotes)
  | .flashCrash =>
    { s with
      currentMid := s.currentMid - PriceProcess.drop
      process := s.process.flashCrash }
  | .whaleBuy socket => if s.connected then s.send none (.newOrder whaleOrder) socket else s
  | .volSpike => { s with process := s.process.volSpike }
  | .ignored => s

/-- The mid price moves, and those who may know are told. -/
def midpriceMove (cfg : ArenaConfig T) (s : Arena T) (draws : PriceDraws) : Arena T :=
  let (tick, process) := s.process.step cfg.exp draws
  { s with
    process := process
    currentMid := tick
    stepCount := s.stepCount + 1
    agents := s.agents.map fun entry => (entry.1, entry.2.setTruePrice tick) }

/-- Sample the market maker's state. -/
def metricsSample (s : Arena T) : Arena T :=
  match s.agents.lookup .mm with
  | none => s
  | some mm =>
    { s with
      metrics := s.metrics.recordState mm.base.stats.totalPnl mm.base.stats.inventory s.currentMid }

/-- Process a single event. -/
def processEvent (cfg : ArenaConfig T) (s : Arena T) (event : Event T) (input : ArenaInput T) :
    Option (Arena T) :=
  match event.eventType with
  | .midpriceMove => some (s.midpriceMove cfg input.price)
  | .agentAction =>
    match event.agentId with
    | none => some s
    | some id => s.agentAction cfg id input
  | .metricsSample => some s.metricsSample
  | _ => some s

end

end Arena

namespace ArenaConfig

/-- Create agents, each with a block of ids of its own. -/
def createAgents (cfg : ArenaConfig T) : List (AgentId × Agent) :=
  cfg.schedule.agents.zipIdx.map fun entry =>
    (entry.1.1, Agent.create (BaseAgent.create entry.2 (1 / 100)).1 entry.1.1)

/-- The simulator before the main loop, with the book it makes up. -/
def arena (cfg : ArenaConfig T) (connected : Bool) : Arena T where
  agents := cfg.createAgents
  connected := connected
  process := cfg.process
  currentMid := cfg.process.initialPrice
  stepCount := 0
  currentTime := 0
  lastBookUpdate :=
    some ⟨cfg.process.initialPrice - 5, cfg.process.initialPrice + 5, 0, 0, [], [], [], []⟩
  metrics := {}
  quotes := {}
  calls := []

/-- A pass of the main loop: the messages of the frontend, then the event. An error that an agent
raises ends the run. -/
def handle (cfg : ArenaConfig T) (s : Option (Arena T)) (event : Event T) (input : ArenaInput T) :
    Option (Arena T) × List (Event T) :=
  match s with
  | none => (none, [])
  | some s =>
    let s' := { input.frontend.foldl Arena.processIncoming s with currentTime := event.timestamp }
    (s'.processEvent cfg event input, (cfg.schedule.processEvent s'.stepCount event input.extra).2)

/-- The main loop before its first event. -/
def start (cfg : ArenaConfig T) (connected : Bool) (draws : Nat → AgentId → LatencyDraw T) :
    EventLoop.State (Option (Arena T)) (Event T) :=
  EventLoop.start (some (cfg.arena connected)) (cfg.schedule.scheduleInitialEvents draws)

/-- An iteration of the main loop. -/
def iterate (cfg : ArenaConfig T) :=
  EventLoop.step Event.timestamp cfg.handle

end ArenaConfig

end LiquidityArena

import LiquidityArena.Lib.Linked
import LiquidityArena.Lib.Loop
import LiquidityArena.Lib.Machine
import LiquidityArena.Lib.Framing
import LiquidityArena.Lib.Ring
import LiquidityArena.Lib.Queueing
import LiquidityArena.Lib.InFlight
import LiquidityArena.Engine.Types
import LiquidityArena.Engine.ObjectPool
import LiquidityArena.Engine.PriceLevel
import LiquidityArena.Engine.OrderBook
import LiquidityArena.Engine.MatchingEngine
import LiquidityArena.Engine.Message
import LiquidityArena.Engine.TcpServer
import LiquidityArena.Engine.System
import LiquidityArena.Engine.Wire
import LiquidityArena.Engine.Connection
import LiquidityArena.Engine.PollLoop
import LiquidityArena.Engine.SpscQueue
import LiquidityArena.Simulation.TcpClient
import LiquidityArena.Simulation.BaseAgent
import LiquidityArena.Simulation.MarketMaker
import LiquidityArena.Simulation.PriceProcess
import LiquidityArena.Correctness.PricePaths
import LiquidityArena.Simulation.Traders
import LiquidityArena.Simulation.Arena
import LiquidityArena.Lib.Tickets
import LiquidityArena.Correctness.AgentTurns
import LiquidityArena.Correctness.OrderTraffic
import LiquidityArena.Correctness.MarketMakerView
import LiquidityArena.Correctness.QuoteLifetimes
import LiquidityArena.Correctness.MidPrice
import LiquidityArena.Lib.MovingAverage
import LiquidityArena.Correctness.TrendFollowing
import LiquidityArena.Simulation.LatencyArb
import LiquidityArena.Simulation.HawkesProcess
import LiquidityArena.Simulation.Metrics
import LiquidityArena.Simulation.Simulator
import LiquidityArena.View.BookView
import LiquidityArena.View.BookRep
import LiquidityArena.View.BookOps
import LiquidityArena.View.EngineTrace
import LiquidityArena.View.Effects
import LiquidityArena.View.Changes
import LiquidityArena.View.Depth
import LiquidityArena.View.Regular
import LiquidityArena.View.Sweep
import LiquidityArena.View.Observe
import LiquidityArena.View.Threads
import LiquidityArena.View.Capacity
import LiquidityArena.View.Executions
import LiquidityArena.View.Legs
import LiquidityArena.Spec.PriceTime
import LiquidityArena.Correctness.PriceTimePriority
import LiquidityArena.Correctness.MarketOrders
import LiquidityArena.Correctness.Uncrossed
import LiquidityArena.Correctness.Consistency
import LiquidityArena.Correctness.VisibleDepth
import LiquidityArena.Correctness.IcebergSlices
import LiquidityArena.Correctness.WireSafety
import LiquidityArena.Correctness.Outcomes
import LiquidityArena.Correctness.RejectRouting
import LiquidityArena.Correctness.FillReports
import LiquidityArena.Correctness.Conservation
import LiquidityArena.Correctness.NoTrace
import LiquidityArena.Correctness.ServerFraming
import LiquidityArena.Correctness.StreamIntegrity
import LiquidityArena.Correctness.PollPass
import LiquidityArena.Correctness.BoundedFifo
import LiquidityArena.Correctness.AgentLedger
import LiquidityArena.Correctness.QuoteTurnover
import LiquidityArena.Correctness.OrderIds
import LiquidityArena.Correctness.SimulatedTime
import LiquidityArena.Correctness.WireRoundTrip
import LiquidityArena.Correctness.BestPrices
import LiquidityArena.Correctness.Refusals
import LiquidityArena.Correctness.MatchingLoop
import LiquidityArena.Correctness.IcebergSplit
import LiquidityArena.Correctness.QueuePosition
import LiquidityArena.Correctness.OrderSplitting
import LiquidityArena.Correctness.TopOfBook
import LiquidityArena.Correctness.Refinement
import LiquidityArena.Correctness.QueueFairness
import LiquidityArena.Correctness.Overflow
import LiquidityArena.Correctness.PositionLimit
import LiquidityArena.Correctness.HawkesThinning
import LiquidityArena.Correctness.PnlDecomposition
import LiquidityArena.Correctness.IntrusiveQueue
import LiquidityArena.Correctness.PoolSlots
import LiquidityArena.Correctness.Replay
import LiquidityArena.Correctness.Serialization
import LiquidityArena.Correctness.MarketData
import LiquidityArena.Correctness.RequestStream
import LiquidityArena.Correctness.QuoteLadder
import LiquidityArena.Correctness.Desk
import LiquidityArena.Correctness.SelfTrade
import LiquidityArena.Correctness.TurnOrder

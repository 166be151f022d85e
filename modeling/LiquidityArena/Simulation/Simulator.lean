import LiquidityArena.Simulation.MarketMaker

/-!
# The simulator and the market maker

When it is an agent's turn, the simulator asks it for orders, sends the cancels it left
behind and then its orders, and hands out the messages that have arrived. Only what
concerns the market maker is kept: its state, what was sent for it and the fills that
were reported. Sending does not fail; without a connection nothing is sent.
-/

namespace LiquidityArena

/-- A message that the simulator sends to the engine. -/
inductive Sent where
  | cancel (id : Int)
  | newOrder (order : AgentOrder)
  deriving DecidableEq, Repr

/-- The massive market buy order of the scenario `whale_buy`, with its magic id. -/
def whaleOrder : AgentOrder := ⟨999999, .bid, .market, 0, 5000⟩

/-- The simulator as the market maker sees it. -/
structure Simulator where
  mm : MarketMaker
  connected : Bool
  lastBookUpdate : Option TcpClient.BookUpdateMsg
  /-- What was sent for the market maker. -/
  sent : List Sent := []
  /-- The fills reported to all agents. -/
  fills : List TcpClient.FillMsg := []

/-- It is the market maker's turn, at a step count, or another agent's. The messages are those
that `poll` returns afterwards. -/
inductive AgentTurn where
  | marketMaker (stepCount : Int) (messages : List TcpClient.Message)
  | other (messages : List TcpClient.Message)

namespace Simulator

/-- Hand out a message: a snapshot is kept, a fill goes to all agents. -/
def receive (s : Simulator) : TcpClient.Message → Simulator
  | .bookUpdate msg => { s with lastBookUpdate := some msg }
  | .fill msg => { s with
      mm := { s.mm with base := s.mm.base.onFill msg }
      fills := s.fills ++ [msg] }

/-- Send cancel requests to the engine for stale quotes. -/
def submitCancels (s : Simulator) (ids : List Int) : Simulator :=
  if s.connected then { s with sent := s.sent ++ ids.map .cancel } else s

/-- Submit orders to the engine, then hand out the messages that have arrived. -/
def submitOrders (s : Simulator) (orders : List AgentOrder) (messages : List TcpClient.Message) :
    Simulator :=
  if s.connected then
    messages.foldl receive { s with sent := s.sent ++ orders.map .newOrder }
  else s

/-- Send the cancels an agent has left behind, if there are any. -/
def flushCancels (s : Simulator) : Simulator :=
  match s.mm.pendingCancels with
  | some (id :: ids) =>
    let s' := s.submitCancels (id :: ids)
    { s' with mm := { s'.mm with pendingCancels := some [] } }
  | _ => s

/-- Process an agent's turn. -/
def processEvent (cfg : MarketMakerConfig) (s : Simulator) : AgentTurn → Simulator
  | .marketMaker stepCount messages =>
    match s.lastBookUpdate with
    | none => s
    | some update =>
      let (orders, mm) := s.mm.onBookUpdate cfg update stepCount
      ({ s with mm := mm }.flushCancels).submitOrders orders messages
  | .other messages =>
    match s.lastBookUpdate with
    | none => s
    | some _ => if s.connected then messages.foldl receive s else s

/-- The simulator after a sequence of turns. -/
def run (cfg : MarketMakerConfig) (s : Simulator) (turns : List AgentTurn) : Simulator :=
  turns.foldl (processEvent cfg) s

end Simulator

end LiquidityArena

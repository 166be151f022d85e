import LiquidityArena.Engine.TcpServer
import LiquidityArena.Lib.Machine

/-!
# The server and the engine thread together

The two threads share two bounded queues and the lookup `has_order`. Their steps
interleave in any order: the I/O thread accepts and closes connections, handles
messages and consumes events; the engine thread processes one command and then waits
until the event it leads to fits into the queue. The system also records the messages
read so far and what became of them; nothing depends on these records.
-/

namespace LiquidityArena

/-- A message read from a connection. -/
structure Received where
  conn : Nat
  clientIdx : Nat
  type : MsgType
  payload : List UInt8

/-- What became of a message: it was rejected, or its operation was applied. The books are
the one on which this was decided and the one that it left behind. -/
structure Outcome where
  request : Nat
  reject : Option RejectMsg
  book : OrderBook
  after : OrderBook

/-- The state of the two threads. -/
structure System where
  engine : MatchingEngine
  clients : List ClientConn := []
  commands : List (Tagged ClientCommand) := []
  pending : Option (Tagged EngineEvent) := none
  events : List (Tagged EngineEvent) := []
  connections : Nat := 0
  received : List Received := []
  outcomes : List Outcome := []

/-- A step of one of the threads. -/
inductive Action where
  | accept (sock : Int)
  | remove (idx : Nat)
  | message (idx : Nat) (type : MsgType) (payload : List UInt8)
  | consume
  | process (ord : HashOrder)
  | publish

namespace System

/-- No connection, empty queues and an engine over the empty book. -/
def init (fees : FeeSchedule) : System := { engine := .init fees }

/-- The record of a message the server rejects. -/
def screeningOutcome (s : System) : TcpServer.Screening → List Outcome
  | .reject id reason =>
    [⟨s.received.length, some ⟨id, reason⟩, s.engine.book, s.engine.book⟩]
  | .forward _ => []
  | .ignore => []

/-- The record of a processed command: a reject, or an operation that was applied. An order
the book does not take leads to neither. -/
def commandOutcome (s : System) (cmd : Tagged ClientCommand) (event : EngineEvent)
    (after : OrderBook) : List Outcome :=
  match event.payload, cmd.item.payload with
  | .reject msg, _ => [⟨cmd.request, some msg, s.engine.book, after⟩]
  | _, .newOrder msg =>
    if MatchingEngine.ValidParams msg.type msg.price msg.quantity msg.displayQty ∧
        s.engine.book.getOrder msg.id = none ∧ 0 < s.engine.book.pool.available then
      [⟨cmd.request, none, s.engine.book, after⟩]
    else []
  | _, _ => [⟨cmd.request, none, s.engine.book, after⟩]

/-- One step, if it is possible. -/
def step (s : System) : Action → Option System
  | .accept sock => some { s with
      clients := TcpServer.acceptClient s.clients sock s.connections
      connections := s.connections + 1 }
  | .remove idx =>
    if idx < s.clients.length then some { s with clients := TcpServer.removeClient s.clients idx }
    else none
  | .message idx type payload =>
    s.clients[idx]?.map fun client =>
      let done := TcpServer.processMessage s.engine.hasOrder s.clients s.commands idx type payload
        s.received.length
      { s with
        clients := done.1
        commands := done.2
        received := s.received ++ [⟨client.conn, idx, type, payload⟩]
        outcomes := s.outcomes ++
          s.screeningOutcome (TcpServer.screen s.engine.hasOrder type payload) }
  | .consume =>
    match s.events with
    | [] => none
    | event :: events =>
      some { s with clients := TcpServer.consumeEvent s.clients event, events := events }
  | .process ord =>
    match s.pending, s.commands with
    | none, cmd :: commands =>
      (s.engine.processClientCommand ord cmd.item).map fun processed =>
        { s with
          engine := processed.1
          commands := commands
          pending := some ⟨processed.2, cmd.request⟩
          outcomes := s.outcomes ++ s.commandOutcome cmd processed.2 processed.1.book }
    | _, _ => none
  | .publish =>
    match s.pending with
    | none => none
    | some event =>
      if (push s.events event).1 then
        some { s with pending := none, events := (push s.events event).2 }
      else none

/-- The state after a sequence of steps. -/
def run (s : System) (actions : List Action) : Option System := Machine.run step s actions

end System

end LiquidityArena

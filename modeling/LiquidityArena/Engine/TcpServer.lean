import LiquidityArena.Engine.Message

/-!
# The TCP server

What the I/O thread does with its connections and with the messages it reads. The
send buffer of a connection is the list of the messages appended to it. Commands and
events carry the position of a client in the vector of connections, as in the source.
Two pieces of data are not in the source, and nothing depends on them: every
connection has a number of its own, and every item names the message it stems from.
-/

namespace LiquidityArena

/-- An item and the number of the message it stems from. -/
structure Tagged (α : Type) where
  item : α
  request : Nat
  deriving DecidableEq, Repr

/-- The descriptor of no socket. -/
def invalidSock : Int := -1

/-- A client connection, with the number `conn` of its own. -/
structure ClientConn where
  sock : Int
  conn : Nat
  sendBuffer : List (Tagged Report) := []
  deriving DecidableEq, Repr

namespace ClientConn

/-- Append a message to the send buffer. -/
def append (c : ClientConn) (report : Tagged Report) : ClientConn :=
  { c with sendBuffer := c.sendBuffer ++ [report] }

/-- Append a message unless the socket is closed. -/
def send (c : ClientConn) (report : Tagged Report) : ClientConn :=
  if c.sock = invalidSock then c else c.append report

end ClientConn

/-- Capacity of the command queue and of the event queue. -/
def queueCapacity : Nat := 8192

/-- Push to a bounded queue: the result says whether there was room. -/
def push {α : Type} (queue : List α) (item : α) : Bool × List α :=
  if queue.length < queueCapacity then (true, queue ++ [item]) else (false, queue)

namespace TcpServer

/-- Send a reject message to the client at a position, if there is one. -/
def sendReject (clients : List ClientConn) (clientIdx : Nat) (id : OrderId)
    (reason : RejectReason) (request : Nat) : List ClientConn :=
  clients.modify clientIdx (·.send ⟨.reject ⟨id, reason⟩, request⟩)

/-- Broadcast a message to all connected clients. -/
def broadcast (clients : List ClientConn) (report : Tagged Report) : List ClientConn :=
  clients.map (·.send report)

/-- A connection is accepted unless it has no valid socket. -/
def acceptClient (clients : List ClientConn) (sock : Int) (conn : Nat) : List ClientConn :=
  if sock = invalidSock then clients else clients ++ [⟨sock, conn, []⟩]

/-- Close a connection; the later ones move up. -/
def removeClient (clients : List ClientConn) (idx : Nat) : List ClientConn := clients.eraseIdx idx

/-- What one message leads to: a reject, a command or nothing. -/
inductive Screening where
  | reject (id : OrderId) (reason : RejectReason)
  | forward (request : Request)
  | ignore
  deriving DecidableEq, Repr

/-- The checks of `process_message`. -/
def screen (hasOrder : OrderId → Bool) (type : MsgType) (payload : List UInt8) : Screening :=
  match type with
  | .newOrder =>
    if payload.length < NewOrderMsg.size then .reject 0 .invalidParams
    else
      let msg := NewOrderMsg.deserialize payload
      if msg.quantity ≤ 0 then .reject msg.id .invalidParams
      else if msg.type = .limit ∧ msg.price ≤ 0 then .reject msg.id .invalidParams
      else if hasOrder msg.id then .reject msg.id .duplicateId
      else .forward (.newOrder msg)
  | .cancelOrder =>
    if payload.length < CancelOrderMsg.size then .reject 0 .invalidParams
    else .forward (.cancelOrder (CancelOrderMsg.deserialize payload))
  | .modifyOrder =>
    if payload.length < ModifyOrderMsg.size then .reject 0 .invalidParams
    else
      let msg := ModifyOrderMsg.deserialize payload
      if msg.newQuantity ≤ 0 ∨ msg.newPrice ≤ 0 then .reject msg.id .invalidParams
      else .forward (.modifyOrder msg)
  | _ => .ignore

/-- Act on one message; whether there was room for a command is not looked at. -/
def processMessage (hasOrder : OrderId → Bool) (clients : List ClientConn)
    (commands : List (Tagged ClientCommand)) (clientIdx : Nat) (type : MsgType)
    (payload : List UInt8) (request : Nat) : List ClientConn × List (Tagged ClientCommand) :=
  match screen hasOrder type payload with
  | .reject id reason => (sendReject clients clientIdx id reason request, commands)
  | .forward cmd => (clients, (push commands ⟨⟨clientIdx, cmd⟩, request⟩).2)
  | .ignore => (clients, commands)

/-- Act on one engine event: a fill is not sent to anybody. -/
def consumeEvent (clients : List ClientConn) (event : Tagged EngineEvent) : List ClientConn :=
  match event.item.payload with
  | .bookUpdate msg => broadcast clients ⟨.bookUpdate msg, event.request⟩
  | .reject msg => sendReject clients event.item.clientIdx msg.id msg.reason event.request
  | .fill _ => clients

end TcpServer

end LiquidityArena

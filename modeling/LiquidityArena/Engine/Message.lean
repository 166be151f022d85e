import LiquidityArena.Engine.MatchingEngine

/-!
# Messages of the wire protocol

Payloads are byte lists. The message structures are packed and copied byte by byte,
so a field is a fixed range of its payload in the little-endian order of the host,
and a byte that names no enumerator is kept as it is.
-/

namespace LiquidityArena

/-- Message types; `raw` is a byte that names none of them. -/
inductive MsgType where
  | newOrder
  | cancelOrder
  | fill
  | bookUpdate
  | reject
  | modifyOrder
  | heartbeat
  | raw (byte : UInt8)
  deriving DecidableEq, Repr

/-- The message type of a header byte. -/
def MsgType.ofByte (byte : UInt8) : MsgType :=
  if byte = 1 then .newOrder else if byte = 2 then .cancelOrder else if byte = 3 then .fill
  else if byte = 4 then .bookUpdate else if byte = 5 then .reject else if byte = 6 then .modifyOrder
  else if byte = 255 then .heartbeat else .raw byte

/-- The side of a message byte. -/
def Side.ofByte (byte : UInt8) : Side :=
  if byte = 0 then .bid else if byte = 1 then .ask else .raw byte

/-- The order type of a message byte. -/
def OrderType.ofByte (byte : UInt8) : OrderType :=
  if byte = 0 then .limit else if byte = 1 then .market else if byte = 2 then .iceberg
  else .raw byte

/-- The number written in little-endian bytes. -/
def leNat : List UInt8 → Nat
  | [] => 0
  | byte :: bytes => byte.toNat + 256 * leNat bytes

/-- The bytes of a packed field. -/
def field (payload : List UInt8) (offset size : Nat) : List UInt8 :=
  (payload.drop offset).take size

/-- New order request from a client. -/
structure NewOrderMsg where
  id : OrderId
  side : Side
  type : OrderType
  price : Int
  quantity : Int
  displayQty : Int := 0
  deriving DecidableEq, Repr

/-- Cancel order request from a client. -/
structure CancelOrderMsg where
  id : OrderId
  deriving DecidableEq, Repr

/-- Modify order request from a client. -/
structure ModifyOrderMsg where
  id : OrderId
  newPrice : Int
  newQuantity : Int
  deriving DecidableEq, Repr

/-- Order rejection. -/
structure RejectMsg where
  id : OrderId
  reason : RejectReason
  deriving DecidableEq, Repr

namespace NewOrderMsg

/-- The packed size of the message. -/
def size : Nat := 26

/-- Read the message from its packed bytes. -/
def deserialize (payload : List UInt8) : NewOrderMsg where
  id := leNat (field payload 0 8)
  side := .ofByte (payload.getD 8 0)
  type := .ofByte (payload.getD 9 0)
  price := toInt64 (leNat (field payload 10 8))
  quantity := toInt32 (leNat (field payload 18 4))
  displayQty := toInt32 (leNat (field payload 22 4))

/-- The arguments with which the engine thread calls `process_new_order`. -/
def args (msg : NewOrderMsg) : NewOrder :=
  ⟨msg.id, msg.side, msg.type, msg.price, msg.quantity, 0, msg.displayQty⟩

end NewOrderMsg

namespace CancelOrderMsg

/-- The packed size of the message. -/
def size : Nat := 8

/-- Read the message from its packed bytes. -/
def deserialize (payload : List UInt8) : CancelOrderMsg := ⟨leNat (field payload 0 8)⟩

end CancelOrderMsg

namespace ModifyOrderMsg

/-- The packed size of the message. -/
def size : Nat := 20

/-- Read the message from its packed bytes. -/
def deserialize (payload : List UInt8) : ModifyOrderMsg where
  id := leNat (field payload 0 8)
  newPrice := toInt64 (leNat (field payload 8 8))
  newQuantity := toInt32 (leNat (field payload 16 4))

end ModifyOrderMsg

/-- The bytes of a new order whose fields fit into one byte, without a display quantity. -/
def newOrderBytes (id side type price quantity : UInt8) : List UInt8 :=
  id :: List.replicate 7 0 ++ side :: type :: price :: List.replicate 7 0 ++
    quantity :: List.replicate 7 0

/-- The bytes of a cancel whose id fits into one byte. -/
def cancelOrderBytes (id : UInt8) : List UInt8 := id :: List.replicate 7 0

/-- The payload of a command: the requests the engine thread handles. -/
inductive Request where
  | newOrder (msg : NewOrderMsg)
  | cancelOrder (msg : CancelOrderMsg)
  | modifyOrder (msg : ModifyOrderMsg)
  deriving DecidableEq, Repr

/-- Command sent from the I/O thread to the engine thread. -/
structure ClientCommand where
  clientIdx : Nat
  payload : Request
  deriving DecidableEq, Repr

/-- The payload of an event, and of a message to a client. -/
inductive Report where
  | fill (msg : FillMsg)
  | reject (msg : RejectMsg)
  | bookUpdate (msg : BookUpdateMsg)
  deriving DecidableEq, Repr

/-- Event sent from the engine thread to the I/O thread. -/
structure EngineEvent where
  clientIdx : Nat
  payload : Report
  deriving DecidableEq, Repr

/-- The event that broadcasts the book. -/
def MatchingEngine.updateEvent (e : MatchingEngine) (ord : HashOrder) : EngineEvent :=
  ⟨0, .bookUpdate (e.getBookSnapshot ord)⟩

/-- Process a popped command. Every command leads to one event: a reject for a cancel or
modify that fails, else a snapshot. -/
def MatchingEngine.processClientCommand (e : MatchingEngine) (ord : HashOrder)
    (cmd : ClientCommand) : Option (MatchingEngine × EngineEvent) :=
  match cmd.payload with
  | .newOrder msg =>
    (e.processNewOrder ord msg.id msg.side msg.type msg.price msg.quantity 0 msg.displayQty).map
      fun processed => (processed.2, processed.2.updateEvent ord)
  | .cancelOrder msg =>
    let (ok, e') := e.processCancel ord msg.id
    if ok then some (e', e'.updateEvent ord)
    else some (e', ⟨cmd.clientIdx, .reject ⟨msg.id, .orderNotFound⟩⟩)
  | .modifyOrder msg =>
    let (ok, e') := e.processModify ord msg.id msg.newPrice msg.newQuantity
    if ok then some (e', e'.updateEvent ord)
    else some (e', ⟨cmd.clientIdx, .reject ⟨msg.id, .invalidModify⟩⟩)

end LiquidityArena

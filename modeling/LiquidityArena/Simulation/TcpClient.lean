import LiquidityArena.Engine.Wire

/-!
# The Python TCP client

Payloads are packed and unpacked by format strings. A call of `poll` extends the receive
buffer by what the socket returns and takes all complete messages off its front; `none`
is an exception.
-/

namespace LiquidityArena

namespace TcpClient

/-- The codes of a little-endian format string. -/
inductive Code where
  /-- `B`, an unsigned byte. -/
  | uint8
  /-- `I`, four unsigned bytes. -/
  | uint32
  /-- `Q`, eight unsigned bytes. -/
  | uint64
  /-- `i`, four signed bytes. -/
  | int32
  /-- `q`, eight signed bytes. -/
  | int64
  deriving DecidableEq, Repr

namespace Code

/-- The number of bytes of a code. -/
def size : Code → Nat
  | .uint8 => 1
  | .uint32 => 4
  | .uint64 => 8
  | .int32 => 4
  | .int64 => 8

/-- The number that the bytes of a code stand for. -/
def decode : Code → List UInt8 → Int
  | .int32, bytes => toInt32 (leNat bytes)
  | .int64, bytes => toInt64 (leNat bytes)
  | _, bytes => leNat bytes

/-- The least value of a code. -/
def least : Code → Int
  | .int32 => -2 ^ 31
  | .int64 => -2 ^ 63
  | _ => 0

/-- The first number above the values of a code. -/
def bound : Code → Int
  | .uint8 => 2 ^ 8
  | .uint32 => 2 ^ 32
  | .uint64 => 2 ^ 64
  | .int32 => 2 ^ 31
  | .int64 => 2 ^ 63

/-- The values that can be packed with a code. -/
def Fits (code : Code) (v : Int) : Prop := code.least ≤ v ∧ v < code.bound

instance (code : Code) (v : Int) : Decidable (code.Fits v) :=
  inferInstanceAs (Decidable (_ ∧ _))

/-- The bytes of a value, in two's complement if it is negative. -/
def encode (code : Code) (v : Int) : List UInt8 :=
  leBytes code.size (v % 256 ^ code.size).toNat

end Code

/-- The number of bytes a format describes. -/
def calcsize (format : List Code) : Nat := (format.map Code.size).sum

/-- The values of the fields, one after the other. -/
def values : List Code → List UInt8 → List Int
  | [], _ => []
  | code :: format, data => code.decode (data.take code.size) :: values format (data.drop code.size)

/-- Unpack data of exactly the size of the format. -/
def unpack (format : List Code) (data : List UInt8) : Option (List Int) :=
  if data.length = calcsize format then some (values format data) else none

/-- Pack values one after the other; one that does not fit its code raises. -/
def pack : List Code → List Int → Option (List UInt8)
  | [], [] => some []
  | code :: format, v :: vs =>
    if code.Fits v then (pack format vs).map (code.encode v ++ ·) else none
  | _, _ => none

/-- A new order request. -/
structure NewOrderMsg where
  id : Int
  side : Int
  type : Int
  price : Int
  quantity : Int
  displayQty : Int := 0
  deriving DecidableEq, Repr

namespace NewOrderMsg

/-- `<QBBqii`: id, side, type, price, quantity and display quantity. -/
def format : List Code := [.uint64, .uint8, .uint8, .int64, .int32, .int32]

/-- The packed bytes, if all fields fit. -/
def pack (msg : NewOrderMsg) : Option (List UInt8) :=
  TcpClient.pack format
    [msg.id, msg.side, msg.type, msg.price, msg.quantity, msg.displayQty]

end NewOrderMsg

/-- A cancel request. -/
structure CancelOrderMsg where
  id : Int
  deriving DecidableEq, Repr

namespace CancelOrderMsg

/-- `<Q`: the id. -/
def format : List Code := [.uint64]

/-- The packed bytes, if the id fits. -/
def pack (msg : CancelOrderMsg) : Option (List UInt8) := TcpClient.pack format [msg.id]

end CancelOrderMsg

/-- A fill notification. -/
structure FillMsg where
  makerId : Int
  takerId : Int
  price : Int
  quantity : Int
  deriving DecidableEq, Repr

namespace FillMsg

/-- `<QQqi`: both ids, price and quantity; there is no room for the fees. -/
def format : List Code := [.uint64, .uint64, .int64, .int32]

/-- Read the message from the first bytes. -/
def unpack (data : List UInt8) : Option FillMsg :=
  (TcpClient.unpack format (data.take (calcsize format))).map fun v =>
    ⟨v.getD 0 0, v.getD 1 0, v.getD 2 0, v.getD 3 0⟩

end FillMsg

/-- A snapshot of the book. -/
structure BookUpdateMsg where
  bestBid : Int
  bestAsk : Int
  numBidLevels : Int
  numAskLevels : Int
  bidPrices : List Int
  bidQuantities : List Int
  askPrices : List Int
  askQuantities : List Int
  deriving DecidableEq, Repr

namespace BookUpdateMsg

/-- `<qqii10q10i10q10i`: the best prices, the numbers of levels and the levels of both sides. -/
def format : List Code :=
  [.int64, .int64, .int32, .int32] ++ List.replicate 10 .int64 ++ List.replicate 10 .int32 ++
    List.replicate 10 .int64 ++ List.replicate 10 .int32

/-- The slice `values[start:stop]`. -/
def slice (v : List Int) (start stop : Nat) : List Int := (v.take stop).drop start

/-- Read the message from the first bytes. -/
def unpack (data : List UInt8) : Option BookUpdateMsg :=
  (TcpClient.unpack format (data.take (calcsize format))).map fun v =>
    { bestBid := v.getD 0 0
      bestAsk := v.getD 1 0
      numBidLevels := v.getD 2 0
      numAskLevels := v.getD 3 0
      bidPrices := slice v 4 14
      bidQuantities := slice v 14 24
      askPrices := slice v 24 34
      askQuantities := slice v 34 44 }

end BookUpdateMsg

/-- The message types the client knows; another number raises. -/
def msgType (n : Int) : Option MsgType :=
  if n = 1 then some .newOrder else if n = 2 then some .cancelOrder else if n = 3 then some .fill
  else if n = 4 then some .bookUpdate else if n = 5 then some .reject
  else if n = 255 then some .heartbeat else none

/-- A message that `poll` returns. -/
inductive Message where
  | fill (msg : FillMsg)
  | bookUpdate (msg : BookUpdateMsg)
  deriving DecidableEq, Repr

/-- `<BI`: the type and the length of the payload. -/
def headerFormat : List Code := [.uint8, .uint32]

/-- The packed size of the header. -/
def headerSize : Nat := calcsize headerFormat

/-- The number of the message type of a new order and of a cancel. -/
def newOrderType : Int := 1

@[inherit_doc newOrderType]
def cancelOrderType : Int := 2

/-- The header of a payload, in front of it. -/
def frame (msgTypeNumber : Int) (payload : List UInt8) : Option (List UInt8) :=
  (pack headerFormat [msgTypeNumber, payload.length]).map (· ++ payload)

/-- The bytes of a new order that are handed to the socket. -/
def sendNewOrder (orderId side orderType price quantity displayQty : Int) : Option (List UInt8) :=
  (NewOrderMsg.pack ⟨orderId, side, orderType, price, quantity, displayQty⟩).bind
    (frame newOrderType)

/-- The bytes of a cancel that are handed to the socket. -/
def sendCancel (orderId : Int) : Option (List UInt8) :=
  (CancelOrderMsg.pack ⟨orderId⟩).bind (frame cancelOrderType)

/-- What a message leads to: it is returned if it is a fill or a snapshot. -/
def accept (msgTypeNumber : Int) (payload : List UInt8) : Option (List Message) :=
  match msgType msgTypeNumber with
  | none => none
  | some .fill => (FillMsg.unpack payload).map fun fill => [.fill fill]
  | some .bookUpdate => (BookUpdateMsg.unpack payload).map fun update => [.bookUpdate update]
  | some _ => some []

/-- The message type and the payload length of the header in front of the buffer. -/
def header (buffer : List UInt8) : Int × Nat :=
  let v := values headerFormat (buffer.take headerSize)
  (v.getD 0 0, (v.getD 1 0).toNat)

/-- Process complete messages: what is returned and what stays in the buffer. -/
def process (buffer : List UInt8) : Option (List Message × List UInt8) :=
  if headerSize ≤ buffer.length then
    let totalSize := headerSize + (header buffer).2
    if buffer.length < totalSize then some ([], buffer)
    else
      match accept (header buffer).1 ((buffer.take totalSize).drop headerSize) with
      | none => none
      | some messages =>
        (process (buffer.drop totalSize)).map fun rest => (messages ++ rest.1, rest.2)
  else some ([], buffer)
termination_by buffer.length
decreasing_by
  rw [List.length_drop]
  have hsize : headerSize = 5 := rfl
  omega

/-- What `recv` does: it returns data, which is empty at the end of the stream, or raises. -/
inductive Recv where
  | data (bytes : List UInt8)
  | blocking
  | osError
  deriving DecidableEq, Repr

/-- Read and process available messages. -/
def poll (buffer : List UInt8) : Recv → Option (List Message × List UInt8)
  | .data bytes => if bytes = [] then some ([], buffer) else process (buffer ++ bytes)
  | .blocking => process buffer
  | .osError => some ([], buffer)

end TcpClient

end LiquidityArena

import LiquidityArena.Engine.TcpServer

/-!
# Bytes on the wire

A message is a header, which holds its type and the length of its payload, followed by
the bytes of its packed structure. The host is little-endian, so a field of a structure
is copied in the order its bytes have on the wire.
-/

namespace LiquidityArena

/-- The little-endian bytes of an unsigned field of a given size. -/
def leBytes : Nat → Nat → List UInt8
  | 0, _ => []
  | size + 1, n => UInt8.ofNat n :: leBytes size (n / 256)

@[simp] theorem length_leBytes (size n : Nat) : (leBytes size n).length = size := by
  induction size generalizing n with
  | zero => rfl
  | succ size ih => rw [leBytes, List.length_cons, ih]

private theorem leNat_leBytes (size n : Nat) : leNat (leBytes size n) = n % 256 ^ size := by
  induction size generalizing n with
  | zero => rw [leBytes, leNat, pow_zero, Nat.mod_one]
  | succ size ih =>
    have hbyte : (UInt8.ofNat n).toNat = n % 256 := UInt8.toNat_ofNat'
    rw [leBytes, leNat, ih, hbyte, pow_succ', Nat.mod_mul]

/-- Nothing is lost by a value that fits. -/
theorem leNat_leBytes_of_lt {size n : Nat} (h : n < 256 ^ size) : leNat (leBytes size n) = n := by
  rw [leNat_leBytes, Nat.mod_eq_of_lt h]

/-- The bytes of an `int64_t`. -/
def int64Bytes (x : Int64) : List UInt8 := leBytes 8 x.toBitVec.toNat

/-- The bytes of an `int32_t`. -/
def int32Bytes (x : Int32) : List UInt8 := leBytes 4 x.toBitVec.toNat

@[simp] theorem length_int64Bytes (x : Int64) : (int64Bytes x).length = 8 := length_leBytes ..

@[simp] theorem length_int32Bytes (x : Int32) : (int32Bytes x).length = 4 := length_leBytes ..

/-- Eight little-endian bytes read back the number written. -/
theorem toInt64_int64Bytes (x : Int64) : toInt64 (leNat (int64Bytes x)) = x.toInt := by
  rw [int64Bytes, leNat_leBytes_of_lt x.toBitVec.isLt, toInt64, Int64.toInt,
    BitVec.toInt_eq_toNat_bmod]

/-- Four little-endian bytes read back the number written. -/
theorem toInt32_int32Bytes (x : Int32) : toInt32 (leNat (int32Bytes x)) = x.toInt := by
  rw [int32Bytes, leNat_leBytes_of_lt x.toBitVec.isLt, toInt32, Int32.toInt,
    BitVec.toInt_eq_toNat_bmod]

/-- The header byte of a message type. -/
def MsgType.toByte : MsgType → UInt8
  | .newOrder => 1
  | .cancelOrder => 2
  | .fill => 3
  | .bookUpdate => 4
  | .reject => 5
  | .modifyOrder => 6
  | .heartbeat => 255
  | .raw byte => byte

/-- The byte of a side. -/
def Side.toByte : Side → UInt8
  | .bid => 0
  | .ask => 1
  | .raw byte => byte

/-- The byte of an order type. -/
def OrderType.toByte : OrderType → UInt8
  | .limit => 0
  | .market => 1
  | .iceberg => 2
  | .raw byte => byte

/-- The byte of a reject reason. -/
def RejectReason.toByte : RejectReason → UInt8
  | .invalidParams => 0
  | .poolExhausted => 1
  | .orderNotFound => 2
  | .duplicateId => 3
  | .invalidModify => 4

/-- The header of a message. -/
structure MsgHeader where
  type : MsgType
  length : Nat
  deriving DecidableEq, Repr

namespace MsgHeader

/-- The packed size of the header. -/
def size : Nat := 5

/-- The bytes of the header; the length is a `uint32_t`. -/
def bytes (header : MsgHeader) : List UInt8 := header.type.toByte :: leBytes 4 header.length

/-- Read a header from the first bytes. -/
def deserialize (bytes : List UInt8) : MsgHeader :=
  ⟨.ofByte (bytes.getD 0 0), leNat (field bytes 1 4)⟩

end MsgHeader

/-- The packed structure of a snapshot, with the widths of its fields. -/
structure PackedBookUpdate where
  bestBid : Int64
  bestAsk : Int64
  numBidLevels : Int32
  numAskLevels : Int32
  bidPrices : Vector Int64 maxDepthLevels
  bidQuantities : Vector Int32 maxDepthLevels
  askPrices : Vector Int64 maxDepthLevels
  askQuantities : Vector Int32 maxDepthLevels
  deriving DecidableEq

namespace PackedBookUpdate

/-- The packed size of the message. -/
def size : Nat := 264

/-- The bytes of the message, field by field. -/
def bytes (msg : PackedBookUpdate) : List UInt8 :=
  int64Bytes msg.bestBid ++ int64Bytes msg.bestAsk ++
    int32Bytes msg.numBidLevels ++ int32Bytes msg.numAskLevels ++
    msg.bidPrices.toList.flatMap int64Bytes ++ msg.bidQuantities.toList.flatMap int32Bytes ++
    msg.askPrices.toList.flatMap int64Bytes ++ msg.askQuantities.toList.flatMap int32Bytes

end PackedBookUpdate

/-- The packed structure of a fill notification, with the widths of its fields. -/
structure PackedFill where
  makerId : UInt64
  takerId : UInt64
  price : Int64
  quantity : Int32
  makerFee : Int64
  takerFee : Int64
  deriving DecidableEq

namespace PackedFill

/-- The packed size of the message. -/
def size : Nat := 44

/-- The bytes of the message, field by field. -/
def bytes (msg : PackedFill) : List UInt8 :=
  leBytes 8 msg.makerId.toNat ++ leBytes 8 msg.takerId.toNat ++ int64Bytes msg.price ++
    int32Bytes msg.quantity ++ int64Bytes msg.makerFee ++ int64Bytes msg.takerFee

@[simp] theorem length_bytes (msg : PackedFill) : msg.bytes.length = size := by
  simp only [bytes, List.length_append, length_leBytes, length_int64Bytes, length_int32Bytes]
  rfl

/-- Serialize a message into a buffer with header. -/
def serialize (msg : PackedFill) : List UInt8 := MsgHeader.bytes ⟨.fill, size⟩ ++ msg.bytes

end PackedFill

namespace RejectMsg

/-- The packed size of the message. -/
def size : Nat := 9

/-- The bytes of the message; the id is a `uint64_t`. -/
def bytes (msg : RejectMsg) : List UInt8 := leBytes 8 msg.id ++ [msg.reason.toByte]

end RejectMsg

/-- Records of one size take that size each. -/
theorem length_flatMap_of_const {α β : Type} {f : α → List β} {n : Nat} (l : List α)
    (h : ∀ a, (f a).length = n) : (l.flatMap f).length = l.length * n := by
  rw [List.length_flatMap, List.map_congr_left fun a _ => h a, List.map_const', List.sum_replicate,
    smul_eq_mul]

@[simp] theorem PackedBookUpdate.length_bytes (msg : PackedBookUpdate) :
    msg.bytes.length = size := by
  simp only [bytes, List.length_append, length_flatMap_of_const _ length_int64Bytes,
    length_flatMap_of_const _ length_int32Bytes, length_int64Bytes, length_int32Bytes,
    Vector.length_toList]
  rfl

@[simp] theorem RejectMsg.length_bytes (msg : RejectMsg) : msg.bytes.length = size := by
  simp [bytes, size]

/-- Maximum possible message size: that of a snapshot with its header. -/
def maxMsgSize : Nat := MsgHeader.size + PackedBookUpdate.size

/-- A message that is sent to a client, with the fields of its structure. -/
inductive Outbound where
  | bookUpdate (msg : PackedBookUpdate)
  | reject (msg : RejectMsg)
  deriving DecidableEq

namespace Outbound

/-- The message type in the header of a message of the server. -/
def type : Outbound → MsgType
  | .bookUpdate _ => .bookUpdate
  | .reject _ => .reject

/-- The bytes of the packed structure. -/
def payload : Outbound → List UInt8
  | .bookUpdate msg => msg.bytes
  | .reject msg => msg.bytes

/-- Serialize a message into a buffer with header. -/
def serialize (msg : Outbound) : List UInt8 :=
  MsgHeader.bytes ⟨msg.type, msg.payload.length⟩ ++ msg.payload

end Outbound

end LiquidityArena

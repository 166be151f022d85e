import LiquidityArena.Correctness.StreamIntegrity
import LiquidityArena.Correctness.ServerFraming

/-!
# Messages that both languages describe

A request is packed by a format string in Python and copied into a packed structure by
the server; a fill is copied out of a packed structure and unpacked by a format string.
An object is what can be read from it: the value of each of its fields. Every field of a
request arrives. A fill arrives without its two fees, which the client's format omits.
-/

namespace LiquidityArena

/-- A field behind other bytes. -/
theorem field_append_right {a : List UInt8} {n : Nat} (h : a.length = n) (b : List UInt8)
    (offset size : Nat) : field (a ++ b) (n + offset) size = field b offset size := by
  rw [field, field, ← h, List.drop_append, Nat.add_sub_cancel_left,
    List.drop_of_length_le (Nat.le_add_right _ _), List.nil_append]

/-- A field in front of other bytes. -/
theorem field_append_left {a : List UInt8} {n : Nat} (h : a.length = n) (b : List UInt8) :
    field (a ++ b) 0 n = a := by
  rw [field, List.drop_zero, List.take_left' h]

namespace MsgHeader

/-- The server reads back a header that names its type. -/
theorem deserialize_bytes (header : MsgHeader) (htype : .ofByte header.type.toByte = header.type)
    (hlength : header.length < 256 ^ 4) (t : List UInt8) :
    deserialize (header.bytes ++ t) = header := by
  have hfield : field (header.bytes ++ t) 1 4 = leBytes 4 header.length := by
    change field ([header.type.toByte] ++ (leBytes 4 header.length ++ t)) (1 + 0) 4 = _
    have hone : [header.type.toByte].length = 1 := rfl
    rw [field_append_right hone, field_append_left (length_leBytes ..)]
  rw [deserialize, hfield, leNat_leBytes_of_lt hlength]
  change MsgHeader.mk (.ofByte header.type.toByte) _ = _
  rw [htype]

end MsgHeader

/-- The server finds a message that is not oversized behind its header. -/
theorem parse_message {type : MsgType} {payload : List UInt8}
    (htype : .ofByte type.toByte = type) (hsize : payload.length ≤ PackedBookUpdate.size) :
    serverRule.parse (MsgHeader.bytes ⟨type, payload.length⟩ ++ payload) =
      ([(type, payload)], some []) := by
  have hheader : (MsgHeader.bytes ⟨type, payload.length⟩).length = MsgHeader.size :=
    TcpClient.length_headerBytes _
  have hread := MsgHeader.deserialize_bytes ⟨type, payload.length⟩ htype
    (hsize.trans_lt (by decide)) payload
  have hpayload : field (MsgHeader.bytes ⟨type, payload.length⟩ ++ payload) MsgHeader.size
      payload.length = payload := by
    rw [field, List.drop_left' hheader, List.take_length]
  have hitem : serverRule.next (MsgHeader.bytes ⟨type, payload.length⟩ ++ payload) =
      .item (type, payload) (MsgHeader.size + payload.length) := by
    have hrule (s : List UInt8) : serverRule.next s = nextFrame s := rfl
    rw [hrule, nextFrame_eq_item, hread, hpayload, List.length_append, hheader]
    exact ⟨Nat.le_add_right _ _, rfl, Nat.add_le_add_left hsize _, le_rfl, rfl⟩
  rw [serverRule.parse_item hitem, ← hheader, ← List.length_append, List.drop_length,
    serverRule.parse_more rfl]

/-- Every side byte is the byte of the side it decodes to. -/
theorem Side.toByte_ofByte (byte : UInt8) : (Side.ofByte byte).toByte = byte := by
  rw [Side.ofByte]
  split_ifs with hbid hask
  · exact hbid.symm
  · exact hask.symm
  · rfl

/-- Every type byte is the byte of the type it decodes to. -/
theorem OrderType.toByte_ofByte (byte : UInt8) : (OrderType.ofByte byte).toByte = byte := by
  rw [OrderType.ofByte]
  split_ifs with hlimit hmarket hiceberg
  · exact hlimit.symm
  · exact hmarket.symm
  · exact hiceberg.symm
  · rfl

namespace TcpClient

namespace Code

@[simp] theorem length_encode (code : Code) (v : Int) : (code.encode v).length = code.size :=
  length_leBytes ..

private theorem leNat_encode (code : Code) (v : Int) :
    (leNat (code.encode v) : Int) = v % 256 ^ code.size := by
  have hpos : (0 : Int) < 256 ^ code.size := by positivity
  have hlt : (v % 256 ^ code.size).toNat < 256 ^ code.size := by
    have := Int.emod_lt_of_pos v hpos
    zify
    rwa [Int.toNat_of_nonneg (Int.emod_nonneg v hpos.ne')]
  rw [encode, leNat_leBytes_of_lt hlt, Int.toNat_of_nonneg (Int.emod_nonneg v hpos.ne')]

/-- What is packed with a code is read back by it. -/
theorem decode_encode {code : Code} {v : Int} (h : code.Fits v) :
    code.decode (code.encode v) = v := by
  have hnat := code.leNat_encode v
  obtain ⟨hl, hu⟩ := h
  cases code with
  | uint8 => exact hnat.trans (Int.emod_eq_of_lt hl hu)
  | uint32 => exact hnat.trans (Int.emod_eq_of_lt hl hu)
  | uint64 => exact hnat.trans (Int.emod_eq_of_lt hl hu)
  | int32 =>
    rw [decode, hnat]
    exact (Int.emod_bmod v (2 ^ 32)).trans (toInt32_eq_self hl hu)
  | int64 =>
    rw [decode, hnat]
    exact (Int.emod_bmod v (2 ^ 64)).trans (toInt64_eq_self hl hu)

end Code

private theorem pack_cons {code : Code} {v : Int} {f : List Code} {vs : List Int}
    {data : List UInt8} :
    pack (code :: f) (v :: vs) = some data ↔
      code.Fits v ∧ ∃ rest, pack f vs = some rest ∧ code.encode v ++ rest = data := by
  rw [pack]
  split_ifs with hfits
  · rw [Option.map_eq_some_iff, and_iff_right hfits]
  · simp [hfits]

/-- Values that fit their codes are packed. -/
theorem exists_pack {f : List Code} {vs : List Int} (h : List.Forall₂ Code.Fits f vs) :
    ∃ data, pack f vs = some data := by
  induction h with
  | nil => exact ⟨[], rfl⟩
  | cons hfits _ ih =>
    obtain ⟨rest, hrest⟩ := ih
    exact ⟨_, pack_cons.mpr ⟨hfits, rest, hrest, rfl⟩⟩

/-- Packed values have the size the format announces. -/
theorem length_pack {f : List Code} {vs : List Int} {data : List UInt8}
    (h : pack f vs = some data) : data.length = calcsize f := by
  induction f generalizing vs data with
  | nil =>
    cases vs with
    | nil =>
      obtain rfl := Option.some.inj h
      rfl
    | cons v vs => cases h
  | cons code f ih =>
    cases vs with
    | nil => cases h
    | cons v vs =>
      obtain ⟨-, rest, hrest, rfl⟩ := pack_cons.mp h
      rw [List.length_append, Code.length_encode, ih hrest]
      rfl

/-- A field of packed data, at its offset, is read back. -/
theorem decode_field_pack (front : List Code) (vs : List Int) (hfront : vs.length = front.length)
    {code : Code} {v : Int} {f : List Code} {vs' : List Int} {data : List UInt8}
    (h : pack (front ++ code :: f) (vs ++ v :: vs') = some data) :
    code.decode (field data (calcsize front) code.size) = v := by
  induction front generalizing vs data with
  | nil =>
    obtain rfl := List.length_eq_zero_iff.mp hfront
    obtain ⟨hfits, rest, -, rfl⟩ := pack_cons.mp h
    change code.decode (field (code.encode v ++ rest) 0 code.size) = v
    rw [field_append_left (code.length_encode v), Code.decode_encode hfits]
  | cons first front ih =>
    obtain ⟨w, vs, rfl⟩ := List.exists_cons_of_length_eq_add_one hfront
    obtain ⟨-, rest, hrest, rfl⟩ := pack_cons.mp h
    change code.decode (field (first.encode w ++ rest) (first.size + calcsize front) _) = v
    rw [field_append_right (first.length_encode w), ih vs (Nat.succ.inj hfront) hrest]

/-- A header that is packed is the one the server writes. -/
theorem frame_eq (type : MsgType) {payload : List UInt8} (h : payload.length < 2 ^ 32) :
    frame type.toByte.toNat payload =
      some (MsgHeader.bytes ⟨type, payload.length⟩ ++ payload) := by
  have htype : Code.uint8.Fits type.toByte.toNat := by
    have := type.toByte.toNat_lt
    exact ⟨by simp [Code.least], by simp only [Code.bound]; omega⟩
  have hlength : Code.uint32.Fits payload.length :=
    ⟨by simp [Code.least], by simp only [Code.bound]; omega⟩
  have hbyte : Code.uint8.encode type.toByte.toNat = [type.toByte] := by
    have hmod : ((type.toByte.toNat : Int) % 256 ^ 1).toNat = type.toByte.toNat := by
      have := type.toByte.toNat_lt
      omega
    rw [Code.encode, Code.size, hmod, leBytes, leBytes, UInt8.ofNat_toNat]
  have hbytes : Code.uint32.encode payload.length = leBytes 4 payload.length := by
    have hmod : ((payload.length : Int) % 256 ^ 4).toNat = payload.length := by omega
    rw [Code.encode, Code.size, hmod]
  have hpack : pack headerFormat [(type.toByte.toNat : Int), (payload.length : Int)] =
      some (MsgHeader.bytes ⟨type, payload.length⟩) := by
    refine pack_cons.mpr ⟨htype, _, pack_cons.mpr ⟨hlength, [], rfl, rfl⟩, ?_⟩
    rw [hbyte, hbytes, List.append_nil]
    rfl
  rw [frame, hpack, Option.map_some]

/-- The fields of a new order fit their types. -/
structure NewOrderMsg.Fits (msg : NewOrderMsg) : Prop where
  id : Code.uint64.Fits msg.id
  side : Code.uint8.Fits msg.side
  type : Code.uint8.Fits msg.type
  price : Code.int64.Fits msg.price
  quantity : Code.int32.Fits msg.quantity
  displayQty : Code.int32.Fits msg.displayQty

private theorem NewOrderMsg.exists_pack {msg : NewOrderMsg} (h : msg.Fits) :
    ∃ payload, msg.pack = some payload :=
  TcpClient.exists_pack (.cons h.id (.cons h.side (.cons h.type (.cons h.price
    (.cons h.quantity (.cons h.displayQty .nil))))))

/-- A cancel whose id fits 64 bits can be packed. -/
theorem CancelOrderMsg.exists_pack {msg : CancelOrderMsg} (h : Code.uint64.Fits msg.id) :
    ∃ payload, msg.pack = some payload :=
  TcpClient.exists_pack (.cons h .nil)

end TcpClient

/-- The fields of the messages, under the names both languages use. -/
inductive Field where
  | id
  | side
  | type
  | price
  | quantity
  | displayQty
  | newPrice
  | newQuantity
  | makerId
  | takerId
  | makerFee
  | takerFee
  deriving DecidableEq, Repr

/-- What can be read from an object: the value of each field it has. -/
abbrev Object := Field → Option Int

/-- The fields of a new order of the client. -/
def TcpClient.NewOrderMsg.object (msg : TcpClient.NewOrderMsg) : Object
  | .id => some msg.id
  | .side => some msg.side
  | .type => some msg.type
  | .price => some msg.price
  | .quantity => some msg.quantity
  | .displayQty => some msg.displayQty
  | _ => none

/-- The fields of a cancel of the client. -/
def TcpClient.CancelOrderMsg.object (msg : TcpClient.CancelOrderMsg) : Object
  | .id => some msg.id
  | _ => none

/-- The fields of a fill that the client has read, which has no fees. -/
def TcpClient.FillMsg.object (msg : TcpClient.FillMsg) : Object
  | .makerId => some msg.makerId
  | .takerId => some msg.takerId
  | .price => some msg.price
  | .quantity => some msg.quantity
  | _ => none

/-- The fields of a new order that the server has read. -/
def NewOrderMsg.object (msg : NewOrderMsg) : Object
  | .id => some msg.id
  | .side => some msg.side.toByte.toNat
  | .type => some msg.type.toByte.toNat
  | .price => some msg.price
  | .quantity => some msg.quantity
  | .displayQty => some msg.displayQty
  | _ => none

/-- The fields of a cancel that the server has read. -/
def CancelOrderMsg.object (msg : CancelOrderMsg) : Object
  | .id => some msg.id
  | _ => none

/-- The fields of a modify that the server has read. -/
def ModifyOrderMsg.object (msg : ModifyOrderMsg) : Object
  | .id => some msg.id
  | .newPrice => some msg.newPrice
  | .newQuantity => some msg.newQuantity
  | _ => none

/-- The fields of a fill that the server sends, fees included. -/
def PackedFill.object (msg : PackedFill) : Object
  | .makerId => some msg.makerId.toNat
  | .takerId => some msg.takerId.toNat
  | .price => some msg.price.toInt
  | .quantity => some msg.quantity.toInt
  | .makerFee => some msg.makerFee.toInt
  | .takerFee => some msg.takerFee.toInt
  | _ => none

/-- The fields of a message the client has read, if it is a fill. -/
def TcpClient.Message.object : TcpClient.Message → Option Object
  | .fill msg => some msg.object
  | .bookUpdate _ => none

namespace TcpClient

/-- A byte of packed data. -/
theorem toNat_getD (payload : List UInt8) (n : Nat) :
    ((payload.getD n 0).toNat : Int) = Code.uint8.decode (field payload n 1) := by
  change ((payload.getD n 0).toNat : Int) = (leNat (field payload n 1) : Nat)
  rw [field, List.getD_eq_getElem?_getD, ← List.head?_drop]
  cases payload.drop n <;> rfl

/-- The server reads back a new order. -/
theorem NewOrderMsg.deserialize_pack {msg : NewOrderMsg} {payload : List UInt8}
    (h : msg.pack = some payload) :
    (LiquidityArena.NewOrderMsg.deserialize payload).object = msg.object := by
  have hid := decode_field_pack [] [] rfl h
  have hside := decode_field_pack [.uint64] [_] rfl h
  have htype := decode_field_pack [.uint64, .uint8] [_, _] rfl h
  have hprice := decode_field_pack [.uint64, .uint8, .uint8] [_, _, _] rfl h
  have hqty := decode_field_pack [.uint64, .uint8, .uint8, .int64] [_, _, _, _] rfl h
  have hdisplay := decode_field_pack [.uint64, .uint8, .uint8, .int64, .int32] [_, _, _, _, _] rfl h
  funext f
  cases f <;> simp only [LiquidityArena.NewOrderMsg.object, NewOrderMsg.object,
    LiquidityArena.NewOrderMsg.deserialize]
  case id => exact congrArg some hid
  case side =>
    rw [Side.toByte_ofByte, toNat_getD]
    exact congrArg some hside
  case type =>
    rw [OrderType.toByte_ofByte, toNat_getD]
    exact congrArg some htype
  case price => exact congrArg some hprice
  case quantity => exact congrArg some hqty
  case displayQty => exact congrArg some hdisplay

/-- The server reads back a cancel. -/
theorem CancelOrderMsg.deserialize_pack {msg : CancelOrderMsg} {payload : List UInt8}
    (h : msg.pack = some payload) :
    (LiquidityArena.CancelOrderMsg.deserialize payload).object = msg.object := by
  have hid := decode_field_pack [] [] rfl h
  funext f
  cases f <;> simp only [LiquidityArena.CancelOrderMsg.object, CancelOrderMsg.object,
    LiquidityArena.CancelOrderMsg.deserialize]
  case id => exact congrArg some hid

end TcpClient

/-- The request that the type of a frame's header makes of its payload. -/
def deserializeFrame (f : Frame) : Option Request :=
  match f.1 with
  | .newOrder => some (.newOrder (NewOrderMsg.deserialize f.2))
  | .cancelOrder => some (.cancelOrder (CancelOrderMsg.deserialize f.2))
  | .modifyOrder => some (.modifyOrder (ModifyOrderMsg.deserialize f.2))
  | _ => none

/-- The fields of a request. -/
def Request.object : Request → Object
  | .newOrder msg => msg.object
  | .cancelOrder msg => msg.object
  | .modifyOrder msg => msg.object

/-- The objects the server makes of the bytes a client sends over a new connection. -/
def serverObjects (bytes : List UInt8) : List Object :=
  ((({} : RecvBuffer).handleClientRead bytes).frames.filterMap deserializeFrame).map
    Request.object

/-- The fills the client makes of the bytes of the engine. -/
def clientObjects (bytes : List UInt8) : List Object :=
  (((TcpClient.process bytes).map (·.1)).getD []).filterMap TcpClient.Message.object

/-- The server makes one object of a request. -/
theorem serverObjects_message {type : MsgType} {payload : List UInt8} {request : Request}
    (htype : .ofByte type.toByte = type) (hsize : payload.length ≤ PackedBookUpdate.size)
    (hrequest : deserializeFrame (type, payload) = some request) :
    serverObjects (MsgHeader.bytes ⟨type, payload.length⟩ ++ payload) = [request.object] := by
  have hsound : RecvBuffer.Sound {} := ⟨List.length_replicate, Nat.zero_le _⟩
  have hlength : (MsgHeader.bytes ⟨type, payload.length⟩ ++ payload).length =
      MsgHeader.size + payload.length := by
    rw [List.length_append, TcpClient.length_headerBytes]
    rfl
  have hfit : MsgHeader.size + payload.length ≤ RecvBuffer.window {} :=
    (Nat.add_le_add_left hsize _).trans (by rw [RecvBuffer.window, List.length_replicate]; decide)
  obtain ⟨hparse, -⟩ := RecvBuffer.handleClientRead_spec hsound
    (hlength ▸ Nat.add_pos_left (by decide) _) (hlength ▸ hfit)
  rw [RecvBuffer.content, List.take_zero, List.nil_append, parse_message htype hsize] at hparse
  rw [serverObjects, (Prod.mk.inj hparse).1]
  simp [hrequest]

/-- A message of one of the structures that both languages describe. -/
inductive SharedMsg where
  | newOrder (msg : TcpClient.NewOrderMsg)
  | cancelOrder (msg : TcpClient.CancelOrderMsg)
  | fill (msg : PackedFill)

namespace SharedMsg

/-- The fields fit their types. -/
def Fits : SharedMsg → Prop
  | .newOrder msg => msg.Fits
  | .cancelOrder msg => TcpClient.Code.uint64.Fits msg.id
  | .fill _ => True

/-- The message is a fill. -/
def IsFill : SharedMsg → Prop
  | .fill _ => True
  | _ => False

/-- The object that is sent. -/
def sent : SharedMsg → Object
  | .newOrder msg => msg.object
  | .cancelOrder msg => msg.object
  | .fill msg => msg.object

/-- The objects that the other side makes of the bytes of a message. -/
def received : SharedMsg → List Object
  | .newOrder msg =>
    match TcpClient.sendNewOrder msg.id msg.side msg.type msg.price msg.quantity msg.displayQty with
    | some bytes => serverObjects bytes
    | none => []
  | .cancelOrder msg =>
    match TcpClient.sendCancel msg.id with
    | some bytes => serverObjects bytes
    | none => []
  | .fill msg => clientObjects msg.serialize

/-- One object arrives, and it carries every field of the one that was sent. -/
def Carried (m : SharedMsg) : Prop :=
  ∃ object, m.received = [object] ∧ ∀ f v, m.sent f = some v → object f = some v

private theorem newOrder_received {msg : TcpClient.NewOrderMsg} (h : msg.Fits) :
    (newOrder msg).received = [msg.object] := by
  obtain ⟨payload, hpack⟩ := TcpClient.NewOrderMsg.exists_pack h
  have hlength : payload.length = 26 := TcpClient.length_pack hpack
  have hframe : TcpClient.frame TcpClient.newOrderType payload = _ :=
    TcpClient.frame_eq .newOrder (by omega)
  have hobject := TcpClient.NewOrderMsg.deserialize_pack hpack
  rw [received, TcpClient.sendNewOrder, hpack, Option.bind_some, hframe]
  dsimp only
  rw [serverObjects_message rfl (hlength.trans_le (by decide)) rfl, Request.object, hobject]

private theorem cancelOrder_received {msg : TcpClient.CancelOrderMsg}
    (h : TcpClient.Code.uint64.Fits msg.id) : (cancelOrder msg).received = [msg.object] := by
  obtain ⟨payload, hpack⟩ := TcpClient.CancelOrderMsg.exists_pack h
  have hlength : payload.length = 8 := TcpClient.length_pack hpack
  have hframe : TcpClient.frame TcpClient.cancelOrderType payload = _ :=
    TcpClient.frame_eq .cancelOrder (by omega)
  have hobject := TcpClient.CancelOrderMsg.deserialize_pack hpack
  rw [received, TcpClient.sendCancel, hpack, Option.bind_some, hframe]
  dsimp only
  rw [serverObjects_message rfl (hlength.trans_le (by decide)) rfl, Request.object, hobject]

end SharedMsg

namespace PackedFill

/-- The fill that the client makes of a message: the fields its format names. -/
def view (msg : PackedFill) : TcpClient.FillMsg :=
  ⟨msg.makerId.toNat, msg.takerId.toNat, msg.price.toInt, msg.quantity.toInt⟩

/-- What the client keeps of the bytes of a fill: those in front of the fees. -/
def shown (msg : PackedFill) : List UInt8 :=
  leBytes 8 msg.makerId.toNat ++ (leBytes 8 msg.takerId.toNat ++ (int64Bytes msg.price ++
    (int32Bytes msg.quantity ++ [])))

private theorem values_shown (msg : PackedFill) :
    TcpClient.values TcpClient.FillMsg.format msg.shown =
      [(msg.makerId.toNat : Int), (msg.takerId.toNat : Int), msg.price.toInt,
        msg.quantity.toInt] := by
  have hid (x : UInt64) (f : List TcpClient.Code) (data : List UInt8) :
      TcpClient.values (.uint64 :: f) (leBytes 8 x.toNat ++ data) =
        (x.toNat : Int) :: TcpClient.values f data := by
    have hvalue : TcpClient.Code.uint64.decode (leBytes 8 x.toNat) = x.toNat :=
      congrArg Int.ofNat (leNat_leBytes_of_lt x.toNat_lt)
    rw [TcpClient.values_field (length_leBytes 8 _), hvalue]
  rw [shown, TcpClient.FillMsg.format, hid, hid, TcpClient.values_int64, TcpClient.values_int32,
    TcpClient.values]

/-- The client unpacks a fill without its fees. -/
theorem unpack_bytes (msg : PackedFill) : TcpClient.FillMsg.unpack msg.bytes = some msg.view := by
  have hsize : msg.shown.length = TcpClient.calcsize TcpClient.FillMsg.format := by
    simp only [shown, List.length_append, length_leBytes, length_int64Bytes, length_int32Bytes]
    rfl
  have hbytes : msg.bytes = msg.shown ++ (int64Bytes msg.makerFee ++ int64Bytes msg.takerFee) := by
    simp only [bytes, shown, List.append_assoc, List.append_nil]
  rw [TcpClient.FillMsg.unpack, hbytes, List.take_left' hsize, TcpClient.unpack, if_pos hsize,
    msg.values_shown]
  rfl

private theorem clientObjects_serialize (msg : PackedFill) :
    clientObjects msg.serialize = [msg.view.object] := by
  have hlength : msg.bytes.length < 256 ^ 4 := msg.length_bytes.trans_lt (by decide)
  have hnext := TcpClient.next_message .fill hlength []
  rw [List.append_nil] at hnext
  have hparse : TcpClient.clientRule.parse msg.serialize = ([(3, msg.bytes)], some []) := by
    rw [serialize, ← msg.length_bytes, TcpClient.clientRule.parse_item hnext, List.drop_length,
      TcpClient.clientRule.parse_more rfl]
    rfl
  have haccept : TcpClient.accept 3 msg.bytes = some [.fill msg.view] := by
    have htype : TcpClient.msgType 3 = some .fill := rfl
    rw [TcpClient.accept, htype]
    dsimp only
    rw [msg.unpack_bytes, Option.map_some]
  have hprocess := TcpClient.process_of_parse hparse (by simp [TcpClient.accepted, haccept])
  rw [clientObjects, hprocess]
  simp [TcpClient.accepted, haccept, TcpClient.Message.object]

end PackedFill

/-- A message arrives with every field exactly if it is not a fill, and of a fill every field but
the two fees arrives. -/
theorem shared_messages_carried {m : SharedMsg} (h : m.Fits) :
    (m.Carried ↔ ¬ m.IsFill) ∧
      ∃ object, m.received = [object] ∧
        ∀ f v, m.sent f = some v → (object f = some v ↔ f ≠ .makerFee ∧ f ≠ .takerFee) := by
  cases m with
  | newOrder msg =>
    have hreceived := SharedMsg.newOrder_received h
    refine ⟨⟨fun _ => id, fun _ => ⟨_, hreceived, fun f v hv => hv⟩⟩, _, hreceived,
      fun f v hv => ?_⟩
    cases f <;> simp_all [SharedMsg.sent, TcpClient.NewOrderMsg.object]
  | cancelOrder msg =>
    have hreceived := SharedMsg.cancelOrder_received h
    refine ⟨⟨fun _ => id, fun _ => ⟨_, hreceived, fun f v hv => hv⟩⟩, _, hreceived,
      fun f v hv => ?_⟩
    cases f <;> simp_all [SharedMsg.sent, TcpClient.CancelOrderMsg.object]
  | fill msg =>
    have hreceived : (SharedMsg.fill msg).received = _ := msg.clientObjects_serialize
    refine ⟨⟨fun hcarried => ?_, fun hfill => absurd trivial hfill⟩, _, hreceived,
      fun f v hv => ?_⟩
    · obtain ⟨object, hobject, hall⟩ := hcarried
      obtain rfl := List.singleton_inj.mp (hreceived.symm.trans hobject)
      cases hall .makerFee _ rfl
    · cases f <;> simp_all [SharedMsg.sent, PackedFill.object, TcpClient.FillMsg.object,
        PackedFill.view]

/-- A new order with the largest id and a negative price arrives with every field. -/
theorem shared_messages_carried_new_order :
    (SharedMsg.newOrder ⟨2 ^ 64 - 1, 1, 2, -5, 7, 3⟩).Carried := by
  have hfits : (SharedMsg.newOrder ⟨2 ^ 64 - 1, 1, 2, -5, 7, 3⟩).Fits :=
    ⟨by decide, by decide, by decide, by decide, by decide, by decide⟩
  exact (shared_messages_carried hfits).1.mpr id

/-- A fill of five at 100 arrives without the rebate of its maker. -/
theorem fill_fees_not_carried : ¬ ∀ m : SharedMsg, m.Fits → m.Carried := by
  intro h
  obtain ⟨object, hobject, hall⟩ := h (.fill ⟨1, 2, 100, 5, -1000, 1500⟩) trivial
  have hreceived := PackedFill.clientObjects_serialize ⟨1, 2, 100, 5, -1000, 1500⟩
  obtain rfl := List.singleton_inj.mp (hreceived.symm.trans hobject)
  cases hall .makerFee (-1000) rfl

end LiquidityArena

import LiquidityArena.Engine.Connection
import LiquidityArena.Simulation.TcpClient
import LiquidityArena.Lib.Framing
import LiquidityArena.Lib.Machine

/-!
# The stream from the engine to a client

The bytes appended to a send buffer are, at any time, those the client has received,
those in flight and those still in the buffer. The client parses what it has received by
its own header format, so what it returns is what the serialized messages unpack to.
-/

namespace LiquidityArena

namespace TcpClient

/-- One field in front of the others. -/
theorem values_field {code : Code} {bytes : List UInt8} (h : bytes.length = code.size)
    (f : List Code) (data : List UInt8) :
    values (code :: f) (bytes ++ data) = code.decode bytes :: values f data := by
  rw [values, List.take_left' h, List.drop_left' h]

private theorem values_append {f : List Code} {data : List UInt8} (h : data.length = calcsize f)
    (f' : List Code) (data' : List UInt8) :
    values (f ++ f') (data ++ data') = values f data ++ values f' data' := by
  induction f generalizing data with
  | nil =>
    obtain rfl := List.length_eq_zero_iff.mp h
    rfl
  | cons code f ih =>
    rw [calcsize, List.map_cons, List.sum_cons] at h
    have hdrop : (data.drop code.size).length = calcsize f := by
      rw [List.length_drop, h, Nat.add_sub_cancel_left]
      rfl
    rw [List.cons_append, values, List.take_append_of_le_length (by omega),
      List.drop_append_of_le_length (by omega), ih hdrop]
    rfl

/-- A run of fields of one width. -/
theorem values_flatMap {α : Type} {code : Code} {encode : α → List UInt8} {value : α → Int}
    (hsize : ∀ a, (encode a).length = code.size) (hvalue : ∀ a, code.decode (encode a) = value a)
    (l : List α) : values (List.replicate l.length code) (l.flatMap encode) = l.map value := by
  induction l with
  | nil => rfl
  | cons a l ih =>
    rw [List.length_cons, List.replicate_succ, List.flatMap_cons, values_field (hsize a), ih,
      hvalue]
    rfl

private theorem calcsize_replicate (n : Nat) (code : Code) :
    calcsize (List.replicate n code) = n * code.size := by
  rw [calcsize, List.map_replicate, List.sum_replicate, smul_eq_mul]

/-- The values of a vector of fields of one width, in front of the others. -/
theorem values_vector {α : Type} {code : Code} {encode : α → List UInt8} {value : α → Int}
    (hsize : ∀ a, (encode a).length = code.size) (hvalue : ∀ a, code.decode (encode a) = value a)
    {n : Nat} (v : Vector α n) (f : List Code) (data : List UInt8) :
    values (List.replicate n code ++ f) (v.toList.flatMap encode ++ data) =
      v.toList.map value ++ values f data := by
  have hlen : (v.toList.flatMap encode).length = calcsize (List.replicate n code) := by
    rw [length_flatMap_of_const _ hsize, Vector.length_toList, calcsize_replicate]
  rw [values_append hlen]
  have hv := values_flatMap hsize hvalue v.toList
  rw [Vector.length_toList] at hv
  rw [hv]

private theorem decode_int64Bytes (x : Int64) : Code.int64.decode (int64Bytes x) = x.toInt :=
  toInt64_int64Bytes x

private theorem decode_int32Bytes (x : Int32) : Code.int32.decode (int32Bytes x) = x.toInt :=
  toInt32_int32Bytes x

/-- A 64-bit field reads back the number written. -/
theorem values_int64 (x : Int64) (f : List Code) (data : List UInt8) :
    values (.int64 :: f) (int64Bytes x ++ data) = x.toInt :: values f data := by
  rw [values_field (length_int64Bytes x), decode_int64Bytes]

/-- A 32-bit field reads back the number written. -/
theorem values_int32 (x : Int32) (f : List Code) (data : List UInt8) :
    values (.int32 :: f) (int32Bytes x ++ data) = x.toInt :: values f data := by
  rw [values_field (length_int32Bytes x), decode_int32Bytes]

private theorem values_int64s {n : Nat} (v : Vector Int64 n) (f : List Code) (data : List UInt8) :
    values (List.replicate n .int64 ++ f) (v.toList.flatMap int64Bytes ++ data) =
      v.toList.map Int64.toInt ++ values f data :=
  values_vector length_int64Bytes decode_int64Bytes v f data

private theorem values_int32s {n : Nat} (v : Vector Int32 n) (f : List Code) (data : List UInt8) :
    values (List.replicate n .int32 ++ f) (v.toList.flatMap int32Bytes ++ data) =
      v.toList.map Int32.toInt ++ values f data :=
  values_vector length_int32Bytes decode_int32Bytes v f data

private theorem BookUpdateMsg.slice_append {front mid : List Int} (back : List Int)
    {start stop : Nat}
    (hstart : front.length = start) (hstop : start + mid.length = stop) :
    slice (front ++ (mid ++ back)) start stop = mid := by
  subst hstart hstop
  rw [slice, ← List.append_assoc, List.take_left' (List.length_append ..), List.drop_left]

private theorem BookUpdateMsg.slice_right {front mid : List Int} {start stop : Nat}
    (hstart : front.length = start) (hstop : start + mid.length = stop) :
    slice (front ++ mid) start stop = mid := by
  have h := slice_append [] hstart hstop
  rwa [List.append_nil] at h

end TcpClient

/-- The message that a client is meant to see: the fields of the structure as integers. -/
def PackedBookUpdate.view (msg : PackedBookUpdate) : TcpClient.BookUpdateMsg where
  bestBid := msg.bestBid.toInt
  bestAsk := msg.bestAsk.toInt
  numBidLevels := msg.numBidLevels.toInt
  numAskLevels := msg.numAskLevels.toInt
  bidPrices := msg.bidPrices.toList.map Int64.toInt
  bidQuantities := msg.bidQuantities.toList.map Int32.toInt
  askPrices := msg.askPrices.toList.map Int64.toInt
  askQuantities := msg.askQuantities.toList.map Int32.toInt

/-- The values of the client's format are the fields of the structure. -/
theorem PackedBookUpdate.values_bytes (msg : PackedBookUpdate) :
    TcpClient.values TcpClient.BookUpdateMsg.format msg.bytes =
      [msg.bestBid.toInt, msg.bestAsk.toInt, msg.numBidLevels.toInt, msg.numAskLevels.toInt] ++
        (msg.bidPrices.toList.map Int64.toInt ++ (msg.bidQuantities.toList.map Int32.toInt ++
          (msg.askPrices.toList.map Int64.toInt ++ msg.askQuantities.toList.map Int32.toInt))) := by
  have hasks := TcpClient.values_int32s msg.askQuantities [] []
  simp only [List.append_nil, TcpClient.values] at hasks
  simp only [TcpClient.BookUpdateMsg.format, bytes, List.append_assoc, List.cons_append,
    List.nil_append]
  have hlevels : (10 : Nat) = maxDepthLevels := rfl
  rw [TcpClient.values_int64, TcpClient.values_int64, TcpClient.values_int32,
    TcpClient.values_int32, hlevels, TcpClient.values_int64s, TcpClient.values_int32s,
    TcpClient.values_int64s, hasks]

/-- Unpacking gives back every field. -/
theorem PackedBookUpdate.unpack_bytes (msg : PackedBookUpdate) :
    TcpClient.BookUpdateMsg.unpack msg.bytes = some msg.view := by
  have hsize : TcpClient.calcsize TcpClient.BookUpdateMsg.format = msg.bytes.length :=
    msg.length_bytes.symm
  rw [TcpClient.BookUpdateMsg.unpack, hsize, List.take_length, TcpClient.unpack, if_pos hsize.symm,
    msg.values_bytes, Option.map_some, view]
  have hprices := fun v : Vector Int64 maxDepthLevels =>
    (List.length_map Int64.toInt).trans v.length_toList
  have hquantities := fun v : Vector Int32 maxDepthLevels =>
    (List.length_map Int32.toInt).trans v.length_toList
  congr 2
  · exact TcpClient.BookUpdateMsg.slice_append _ rfl (by rw [hprices]; rfl)
  · rw [← List.append_assoc]
    exact TcpClient.BookUpdateMsg.slice_append _ (by rw [List.length_append, hprices]; rfl)
      (by rw [hquantities]; rfl)
  · rw [← List.append_assoc, ← List.append_assoc]
    exact TcpClient.BookUpdateMsg.slice_append _
      (by rw [List.length_append, List.length_append, hprices, hquantities]; rfl)
      (by rw [hprices]; rfl)
  · rw [← List.append_assoc, ← List.append_assoc, ← List.append_assoc]
    exact TcpClient.BookUpdateMsg.slice_right
      (by rw [List.length_append, List.length_append, List.length_append, hprices, hprices,
        hquantities]; rfl)
      (by rw [hquantities]; rfl)

namespace TcpClient

/-- The next message in the client's buffer: its type number and its payload. -/
def nextMessage (s : List UInt8) : Framing.Next (Int × List UInt8) :=
  if headerSize ≤ s.length then
    if s.length < headerSize + (header s).2 then .more
    else .item ((header s).1, (s.take (headerSize + (header s).2)).drop headerSize)
      (headerSize + (header s).2)
  else .more

private theorem header_append {s : List UInt8} (h : headerSize ≤ s.length) (t : List UInt8) :
    header (s ++ t) = header s := by
  rw [header, header, List.take_append_of_le_length h]

private theorem nextMessage_eq_item {s : List UInt8} {message : Int × List UInt8} {n : Nat} :
    nextMessage s = .item message n ↔ headerSize ≤ s.length ∧ n = headerSize + (header s).2 ∧
      n ≤ s.length ∧ message = ((header s).1, (s.take n).drop headerSize) := by
  rw [nextMessage]
  split_ifs with hhead hcut
  · simp only [false_iff]
    omega
  · rw [Framing.Next.item.injEq]
    constructor
    · rintro ⟨rfl, rfl⟩
      exact ⟨hhead, rfl, by omega, rfl⟩
    · rintro ⟨-, rfl, -, rfl⟩
      exact ⟨rfl, rfl⟩
  · simp only [false_iff]
    omega

private theorem nextMessage_ne_stop (s : List UInt8) : nextMessage s ≠ .stop := by
  rw [nextMessage]
  split_ifs <;> nofun

private theorem nextMessage_size_pos {s : List UInt8} {message : Int × List UInt8} {n : Nat}
    (h : nextMessage s = .item message n) : 0 < n := by
  obtain ⟨-, rfl, -⟩ := nextMessage_eq_item.mp h
  exact Nat.add_pos_left (by decide) _

/-- A message that is complete does not depend on what follows. -/
theorem nextMessage_append {s : List UInt8} {message : Int × List UInt8} {n : Nat}
    (h : nextMessage s = .item message n) (t : List UInt8) :
    nextMessage (s ++ t) = .item message n := by
  obtain ⟨hhead, hn, hle, hmessage⟩ := nextMessage_eq_item.mp h
  rw [nextMessage_eq_item, header_append hhead, List.take_append_of_le_length hle,
    List.length_append]
  exact ⟨by omega, hn, by omega, hmessage⟩

/-- The framing of the messages from the engine. -/
def clientRule : Framing.Rule UInt8 (Int × List UInt8) where
  next := nextMessage
  size_pos := nextMessage_size_pos
  size_le h := (nextMessage_eq_item.mp h).2.2.1
  item_append := nextMessage_append
  stop_append h := absurd h (nextMessage_ne_stop _)

/-- What a message leads to, if it does not raise. -/
def accepted (f : Int × List UInt8) : List Message := (accept f.1 f.2).getD []

/-- If no message raises, the loop returns what the messages lead to and keeps the rest. -/
theorem process_of_parse {buffer rest : List UInt8} {frames : List (Int × List UInt8)}
    (h : clientRule.parse buffer = (frames, some rest))
    (hseen : ∀ f ∈ frames, accept f.1 f.2 = some (accepted f)) :
    process buffer = some (frames.flatMap accepted, rest) := by
  induction hlen : buffer.length using Nat.strong_induction_on generalizing buffer frames with
  | _ len ih =>
    rw [process]
    cases hnext : clientRule.next buffer with
    | stop => exact absurd hnext (nextMessage_ne_stop _)
    | more =>
      rw [clientRule.parse_more hnext] at h
      obtain ⟨rfl, hrest⟩ := Prod.mk.inj h
      obtain rfl := Option.some.inj hrest
      change nextMessage buffer = _ at hnext
      rw [nextMessage] at hnext
      split_ifs at hnext with hhead hcut
      · rw [if_pos hhead, if_pos hcut]
        rfl
      · rw [if_neg hhead]
        rfl
    | item message n =>
      rw [clientRule.parse_item hnext] at h
      obtain ⟨rfl, hrest⟩ := Prod.mk.inj h
      obtain ⟨hhead, rfl, hle, rfl⟩ := nextMessage_eq_item.mp hnext
      have htail := ih _ (hlen ▸ Framing.Rule.length_drop_lt hnext) (Prod.ext rfl hrest)
        (fun f hf => hseen f (List.mem_cons_of_mem _ hf)) rfl
      rw [if_pos hhead, if_neg (by omega), hseen _ List.mem_cons_self, htail]
      rfl

/-- The bytes that `recv` takes off the wire. -/
def Recv.taken : Recv → List UInt8
  | .data bytes => bytes
  | .blocking => []
  | .osError => []

/-- A call of `poll` between messages, if no message raises. -/
theorem poll_of_parse {buffer rest : List UInt8} {frames : List (Int × List UInt8)} {recv : Recv}
    (hbuffer : clientRule.next buffer = .more)
    (h : clientRule.parse (buffer ++ recv.taken) = (frames, some rest))
    (hseen : ∀ f ∈ frames, accept f.1 f.2 = some (accepted f)) :
    poll buffer recv = some (frames.flatMap accepted, rest) := by
  have hidle : recv.taken = [] → some ([], buffer) = some (frames.flatMap accepted, rest) := by
    intro hnil
    rw [hnil, List.append_nil, clientRule.parse_more hbuffer] at h
    obtain ⟨rfl, hrest⟩ := Prod.mk.inj h
    obtain rfl := Option.some.inj hrest
    rfl
  cases recv with
  | data bytes =>
    rw [poll]
    split_ifs with hbytes
    · exact hidle hbytes
    · exact process_of_parse h hseen
  | blocking =>
    rw [Recv.taken, List.append_nil] at h
    exact process_of_parse h hseen
  | osError => exact hidle rfl

/-- The client reads the header the server writes. -/
theorem values_header {header : MsgHeader} (h : header.length < 256 ^ 4) :
    values headerFormat header.bytes = [(header.type.toByte.toNat : Int), (header.length : Int)] := by
  have htype : [header.type.toByte].length = Code.uint8.size := rfl
  have hlength : (leBytes 4 header.length).length = Code.uint32.size := length_leBytes ..
  change values [.uint8, .uint32] ([header.type.toByte] ++ leBytes 4 header.length) = _
  rw [values_field htype, ← List.append_nil (leBytes 4 header.length), values_field hlength]
  change [((leNat [header.type.toByte] : Nat) : Int),
    ((leNat (leBytes 4 header.length) : Nat) : Int)] = _
  rw [leNat_leBytes_of_lt h]
  rfl

/-- A header is written in its declared size. -/
theorem length_headerBytes (header : MsgHeader) : header.bytes.length = headerSize := by
  rw [MsgHeader.bytes, List.length_cons, length_leBytes]
  rfl

/-- The client finds a message of the server in front of any bytes. -/
theorem next_message (type : MsgType) {payload : List UInt8} (h : payload.length < 256 ^ 4)
    (t : List UInt8) :
    clientRule.next (MsgHeader.bytes ⟨type, payload.length⟩ ++ payload ++ t) =
      .item (type.toByte.toNat, payload)
        (MsgHeader.bytes ⟨type, payload.length⟩ ++ payload).length := by
  have hheader := length_headerBytes ⟨type, payload.length⟩
  have hread : header (MsgHeader.bytes ⟨type, payload.length⟩ ++ payload ++ t) =
      ((type.toByte.toNat : Int), payload.length) := by
    rw [List.append_assoc, header, List.take_left' hheader, values_header h]
    rfl
  change nextMessage (MsgHeader.bytes ⟨type, payload.length⟩ ++ payload ++ t) = _
  rw [nextMessage_eq_item, hread, List.take_left, List.drop_left' hheader]
  have hlength : (MsgHeader.bytes ⟨type, payload.length⟩ ++ payload).length =
      headerSize + payload.length := by
    rw [List.length_append, hheader]
  rw [List.length_append, hlength]
  exact ⟨by omega, rfl, by omega, rfl⟩

end TcpClient

namespace Outbound

/-- The message as the client's framing sees it. -/
def frame (msg : Outbound) : Int × List UInt8 := (msg.type.toByte.toNat, msg.payload)

/-- What the client is meant to return for a message. -/
def seen : Outbound → List TcpClient.Message
  | .bookUpdate msg => [.bookUpdate msg.view]
  | .reject _ => []

private theorem length_payload_lt (msg : Outbound) : msg.payload.length < 256 ^ 4 := by
  cases msg with
  | bookUpdate msg => exact msg.length_bytes.trans_lt (by decide)
  | reject msg => exact msg.length_bytes.trans_lt (by decide)

/-- In front of any bytes, the client finds the message. -/
theorem next_serialize (msg : Outbound) (t : List UInt8) :
    TcpClient.clientRule.next (msg.serialize ++ t) = .item msg.frame msg.serialize.length :=
  TcpClient.next_message msg.type msg.length_payload_lt t

private theorem parse_serialize (sent : List Outbound) :
    TcpClient.clientRule.parse (sent.flatMap serialize) = (sent.map frame, some []) := by
  induction sent with
  | nil => exact TcpClient.clientRule.parse_more rfl
  | cons msg sent ih =>
    rw [List.flatMap_cons, TcpClient.clientRule.parse_item (msg.next_serialize _), List.drop_left,
      ih, List.map_cons]

private theorem accept_frame (msg : Outbound) :
    TcpClient.accept msg.frame.1 msg.frame.2 = some msg.seen := by
  cases msg with
  | bookUpdate msg =>
    change (TcpClient.BookUpdateMsg.unpack msg.bytes).map _ = _
    rw [msg.unpack_bytes]
    rfl
  | reject msg => rfl

private theorem accepted_frame (msg : Outbound) : TcpClient.accepted msg.frame = msg.seen := by
  rw [TcpClient.accepted, accept_frame, Option.getD_some]

/-- The first bytes of serialized messages hold the first messages. -/
theorem parse_delivered {delivered rest : List UInt8} {sent : List Outbound}
    (h : delivered ++ rest = sent.flatMap serialize) :
    ∃ frames buffer, TcpClient.clientRule.parse delivered = (frames, some buffer) ∧
      frames <+: sent.map frame ∧ (rest = [] → frames = sent.map frame) := by
  have hresume := TcpClient.clientRule.resume_parse delivered rest
  rw [h, parse_serialize] at hresume
  rcases hparse : TcpClient.clientRule.parse delivered with ⟨frames, _ | buffer⟩
  · rw [hparse] at hresume
    cases (Prod.mk.inj hresume).2
  · refine ⟨frames, buffer, rfl, ?_, fun hrest => ?_⟩
    · rw [hparse] at hresume
      exact ⟨_, (Prod.mk.inj hresume).1⟩
    · rw [hrest, List.append_nil] at h
      rw [h, parse_serialize] at hparse
      exact (Prod.mk.inj hparse).1.symm

private theorem accept_of_prefix {frames : List (Int × List UInt8)} {sent : List Outbound}
    (h : frames <+: sent.map frame) :
    ∀ f ∈ frames, TcpClient.accept f.1 f.2 = some (TcpClient.accepted f) := by
  intro f hf
  obtain ⟨msg, -, rfl⟩ := List.mem_map.mp (h.subset hf)
  rw [accepted_frame, accept_frame]

end Outbound

namespace Connection

@[simp] theorem sock_handleClientWrite (c : Connection) (sent : Int) :
    (c.handleClientWrite sent).sock = c.sock := by
  rw [handleClientWrite]
  split_ifs <;> rfl

/-- A partial write erases exactly what was sent. -/
theorem take_append_handleClientWrite (c : Connection) (sent : Int) :
    c.sendBuffer.take sent.toNat ++ (c.handleClientWrite sent).sendBuffer = c.sendBuffer := by
  rw [handleClientWrite]
  split_ifs with hempty hpos
  · rw [hempty, List.take_nil, List.nil_append]
  · exact List.take_append_drop ..
  · rw [Int.toNat_of_nonpos (by omega), List.take_zero, List.nil_append]

end Connection

/-- A connection of the server, the bytes on their way, and the client at the other end. Recorded
are the messages appended to the send buffer and what the calls of `poll` returned. -/
structure Channel where
  conn : Connection
  wire : List UInt8 := []
  buffer : List UInt8 := []
  sent : List Outbound := []
  polls : List (Option (List TcpClient.Message)) := []

/-- A step of one of the two ends. -/
inductive ChannelAction where
  | send (msg : Outbound)
  | write (sent : Int)
  | poll (recv : TcpClient.Recv)

namespace Channel

/-- The most bytes that one `recv` of the client returns. -/
def recvSize : Nat := 4096

/-- One step: `send` takes bytes off the front of the send buffer, and `recv` returns bytes in
the order in which they were sent. -/
def step (c : Channel) : ChannelAction → Option Channel
  | .send msg => some { c with conn := c.conn.send msg, sent := c.sent ++ [msg] }
  | .write sent =>
    if sent ≤ c.conn.sendBuffer.length then some { c with
      conn := c.conn.handleClientWrite sent
      wire := c.wire ++ c.conn.sendBuffer.take sent.toNat }
    else none
  | .poll recv =>
    if recv.taken <+: c.wire ∧ recv.taken.length ≤ recvSize then
      let polled := TcpClient.poll c.buffer recv
      some { c with
        wire := c.wire.drop recv.taken.length
        buffer := (polled.map (·.2)).getD c.buffer
        polls := c.polls ++ [polled.map (·.1)] }
    else none

/-- The bytes appended so far have been received, are on the wire or are still to be sent, and
the client has returned the messages it has received. -/
structure Inv (c : Channel) : Prop where
  live : c.conn.sock ≠ invalidSock
  received : ∃ (delivered : List UInt8) (frames : List (Int × List UInt8))
      (returned : List (List TcpClient.Message)),
    delivered ++ (c.wire ++ c.conn.sendBuffer) = c.sent.flatMap Outbound.serialize ∧
      TcpClient.clientRule.parse delivered = (frames, some c.buffer) ∧
      c.polls = returned.map some ∧ returned.flatten = frames.flatMap TcpClient.accepted

private theorem inv_init {sock : Int} (hlive : sock ≠ invalidSock) :
    Inv { conn := { sock := sock } } where
  live := hlive
  received := ⟨[], [], [], rfl, TcpClient.clientRule.parse_more rfl, rfl, rfl⟩

/-- One step of either end. -/
theorem Inv.step {c c' : Channel} (h : c.Inv) {a : ChannelAction} (hstep : c.step a = some c') :
    c'.Inv := by
  obtain ⟨hlive, delivered, frames, returned, hbytes, hparse, hpolls, hreturned⟩ := h
  cases a with
  | send msg =>
    obtain rfl := Option.some.inj hstep
    rw [Connection.send, if_neg hlive]
    refine ⟨hlive, delivered, frames, returned, ?_, hparse, hpolls, hreturned⟩
    rw [List.flatMap_append, ← hbytes, List.flatMap_cons, List.flatMap_nil, List.append_nil,
      List.append_assoc, List.append_assoc]
  | write sent =>
    rw [Channel.step] at hstep
    split_ifs at hstep with hle
    obtain rfl := Option.some.inj hstep
    refine ⟨by simpa using hlive, delivered, frames, returned, ?_, hparse, hpolls, hreturned⟩
    dsimp only
    rw [List.append_assoc, c.conn.take_append_handleClientWrite, hbytes]
  | poll recv =>
    rw [Channel.step] at hstep
    split_ifs at hstep with hrecv
    obtain rfl := Option.some.inj hstep
    obtain ⟨⟨rest, hwire⟩, -⟩ := hrecv
    have hbytes' : delivered ++ recv.taken ++ (rest ++ c.conn.sendBuffer) =
        c.sent.flatMap Outbound.serialize := by
      rw [← hbytes, ← hwire, List.append_assoc, List.append_assoc]
    obtain ⟨frames', buffer', hparse', hprefix, -⟩ := Outbound.parse_delivered hbytes'
    -- what the call parses is what has arrived since the last call
    have hresume := TcpClient.clientRule.resume_parse delivered recv.taken
    rw [hparse, hparse', Framing.Rule.resume] at hresume
    obtain ⟨hframes, hrest⟩ := Prod.mk.inj hresume
    have hpolled := TcpClient.poll_of_parse (TcpClient.clientRule.next_rest hparse)
      (Prod.ext rfl hrest) fun f hf => Outbound.accept_of_prefix hprefix f
        (hframes ▸ List.mem_append_right _ hf)
    refine ⟨hlive, delivered ++ recv.taken, frames', returned ++
      [(TcpClient.clientRule.parse (c.buffer ++ recv.taken)).1.flatMap TcpClient.accepted],
      ?_, ?_, ?_, ?_⟩
    · dsimp only
      rw [← hbytes', ← hwire, List.drop_left]
    · rw [hparse', hpolled]
      rfl
    · rw [hpolls, hpolled, List.map_append]
      rfl
    · rw [List.flatten_append, hreturned, ← hframes, List.flatMap_append]
      simp only [List.flatten_cons, List.flatten_nil, List.append_nil]

/-- The messages that a client is meant to return. -/
def expected (c : Channel) : List TcpClient.Message := c.sent.flatMap Outbound.seen

/-- What has been returned is the beginning of what was sent, and all of it at the end. -/
theorem Inv.returned {c : Channel} (h : c.Inv) :
    ∃ returned : List (List TcpClient.Message), c.polls = returned.map some ∧
      returned.flatten <+: c.expected ∧
      (c.conn.sendBuffer = [] → c.wire = [] → returned.flatten = c.expected) := by
  obtain ⟨-, delivered, frames, returned, hbytes, hparse, hpolls, hreturned⟩ := h
  obtain ⟨frames', buffer', hparse', hprefix, hall⟩ := Outbound.parse_delivered hbytes
  obtain ⟨rfl, -⟩ := Prod.mk.inj (hparse.symm.trans hparse')
  have hexpected : c.expected = (c.sent.map Outbound.frame).flatMap TcpClient.accepted := by
    rw [expected, List.flatMap_map]
    exact List.flatMap_congr fun msg _ => (Outbound.accepted_frame msg).symm
  refine ⟨returned, hpolls, ?_, fun hsend hwire => ?_⟩
  · obtain ⟨rest, hrest⟩ := hprefix
    rw [hreturned, hexpected, ← hrest, List.flatMap_append]
    exact List.prefix_append ..
  · rw [hreturned, hexpected, hall (by rw [hsend, hwire, List.append_nil])]

end Channel

/-- Over every run of a live connection and its client, no call of `poll` raises, the messages
returned are the beginning of the snapshots broadcast, with all their fields, and they are all of
them once every byte has been delivered. -/
theorem stream_integrity {sock : Int} (hlive : sock ≠ invalidSock)
    {actions : List ChannelAction} {c : Channel}
    (hrun : Machine.run Channel.step { conn := { sock := sock } } actions = some c) :
    ∃ returned : List (List TcpClient.Message), c.polls = returned.map some ∧
      returned.flatten <+: c.expected ∧
      (c.conn.sendBuffer = [] → c.wire = [] → returned.flatten = c.expected) := by
  have hinv := Machine.run_invariant Channel.Inv (fun h hstep => h.step hstep)
    (Channel.inv_init hlive) hrun
  exact hinv.returned

/-- A snapshot and a reject, written in two parts and read in two other parts. -/
def cutStream (update : PackedBookUpdate) (reject : RejectMsg) : List ChannelAction :=
  let bytes := (Outbound.bookUpdate update).serialize ++ (Outbound.reject reject).serialize
  [.send (.bookUpdate update), .send (.reject reject), .write 100, .poll (.data (bytes.take 3)),
    .poll .blocking, .write 183, .poll (.data (bytes.drop 3))]

/-- A stream whose second header is cut between two reads. -/
theorem stream_integrity_cut_header :
    ∃ c, Machine.run Channel.step { conn := { sock := 5 } }
        (cutStream ⟨100, 102, 1, 1, .replicate _ 7, .replicate _ (-8), .replicate _ (-9),
          .replicate _ 10⟩ ⟨3, .duplicateId⟩) = some c ∧
      ∃ returned : List (List TcpClient.Message), c.polls = returned.map some ∧
        returned.flatten = c.expected := by
  have hruns : (Machine.run Channel.step { conn := { sock := 5 } }
      (cutStream ⟨100, 102, 1, 1, .replicate _ 7, .replicate _ (-8), .replicate _ (-9),
        .replicate _ 10⟩ ⟨3, .duplicateId⟩)).map (fun c => (c.conn.sendBuffer, c.wire)) =
      some ([], []) := by decide +kernel
  obtain ⟨c, hrun, hempty⟩ := Option.map_eq_some_iff.mp hruns
  obtain ⟨hsend, hwire⟩ := Prod.mk.inj hempty
  obtain ⟨returned, hpolls, -, hall⟩ := stream_integrity (by decide) hrun
  exact ⟨c, hrun, returned, hpolls, hall hsend hwire⟩

end LiquidityArena

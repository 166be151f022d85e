import LiquidityArena.Correctness.WireRoundTrip

/-!
# From the client's calls to the server's requests

The client hands the bytes of a request to `sendall`; the server reads them in chunks of any
size into the buffer of the connection. What it hands on are the requests of the client, in
their order and with all their fields, and nothing a client sends loses it its connection.
-/

namespace LiquidityArena

/-- A request for which the client has a method. -/
inductive ClientRequest where
  | newOrder (msg : TcpClient.NewOrderMsg)
  | cancelOrder (msg : TcpClient.CancelOrderMsg)
  deriving DecidableEq, Repr

namespace ClientRequest

/-- The bytes handed to the socket, unless a field does not fit. -/
def bytes : ClientRequest → Option (List UInt8)
  | .newOrder msg =>
    TcpClient.sendNewOrder msg.id msg.side msg.type msg.price msg.quantity msg.displayQty
  | .cancelOrder msg => TcpClient.sendCancel msg.id

/-- What the client means by the request. -/
def object : ClientRequest → Object
  | .newOrder msg => msg.object
  | .cancelOrder msg => msg.object

/-- The bytes that are sent; none when a field does not fit. -/
def encoded (m : ClientRequest) : List UInt8 := m.bytes.getD []

/-- The message as the server's framing sees it. -/
def frame : ClientRequest → Frame
  | .newOrder msg => (.newOrder, msg.pack.getD [])
  | .cancelOrder msg => (.cancelOrder, msg.pack.getD [])

variable {m : ClientRequest} {data : List UInt8}

/-- The bytes of a request are one message. -/
theorem parse_bytes (h : m.bytes = some data) :
    serverRule.parse data = ([m.frame], some []) := by
  cases m with
  | newOrder msg =>
    obtain ⟨payload, hpack, hdata⟩ := Option.bind_eq_some_iff.mp h
    have hlength : payload.length = 26 := TcpClient.length_pack hpack
    have hframe : TcpClient.frame TcpClient.newOrderType payload = _ :=
      TcpClient.frame_eq .newOrder (by omega)
    obtain rfl := Option.some.inj (hframe.symm.trans hdata)
    rw [parse_message rfl (hlength.trans_le (by decide)), frame, hpack, Option.getD_some]
  | cancelOrder msg =>
    obtain ⟨payload, hpack, hdata⟩ := Option.bind_eq_some_iff.mp h
    have hlength : payload.length = 8 := TcpClient.length_pack hpack
    have hframe : TcpClient.frame TcpClient.cancelOrderType payload = _ :=
      TcpClient.frame_eq .cancelOrder (by omega)
    obtain rfl := Option.some.inj (hframe.symm.trans hdata)
    rw [parse_message rfl (hlength.trans_le (by decide)), frame, hpack, Option.getD_some]

/-- The server reads the request from its message. -/
theorem deserialize_frame (h : m.bytes = some data) :
    (deserializeFrame m.frame).map Request.object = some m.object := by
  cases m with
  | newOrder msg =>
    obtain ⟨payload, hpack, -⟩ := Option.bind_eq_some_iff.mp h
    rw [frame, hpack, Option.getD_some]
    exact congrArg some (TcpClient.NewOrderMsg.deserialize_pack hpack)
  | cancelOrder msg =>
    obtain ⟨payload, hpack, -⟩ := Option.bind_eq_some_iff.mp h
    rw [frame, hpack, Option.getD_some]
    exact congrArg some (TcpClient.CancelOrderMsg.deserialize_pack hpack)

/-- The server finds a request that was sent. -/
theorem next_encoded (h : m.bytes ≠ none) :
    serverRule.next m.encoded = .item m.frame m.encoded.length := by
  obtain ⟨data, hdata⟩ := Option.ne_none_iff_exists'.mp h
  rw [encoded, hdata, Option.getD_some]
  exact serverRule.next_of_parse (parse_bytes hdata)

end ClientRequest

/-- A client, the bytes on their way and its connection at the server. Recorded are the requests
that were sent, and whether a call of `sendall` was cut short. -/
structure Uplink where
  wire : List UInt8 := []
  inbound : Inbound := {}
  sent : List ClientRequest := []
  cut : Bool := false

/-- A call of a send method, of whose bytes the socket takes some before it raises, or all of
them; and a read of the server. -/
inductive UplinkAction where
  | send (m : ClientRequest) (taken : Nat)
  | read (n : Nat)

namespace Uplink

/-- The requests that the server has handed on. -/
def requests (u : Uplink) : List Object :=
  (u.inbound.frames.filterMap deserializeFrame).map Request.object

/-- One step: a request whose fields do not fit is not sent, and `recv` returns bytes in the order
in which they were sent, as many as there is room for. -/
def step (u : Uplink) : UplinkAction → Option Uplink
  | .send m taken =>
    match m.bytes with
    | none => some u
    | some data =>
      if data.length ≤ taken then some { u with wire := u.wire ++ data, sent := u.sent ++ [m] }
      else some { u with wire := u.wire ++ data.take taken, cut := true }
  | .read n =>
    match u.inbound.buffer with
    | none => none
    | some b =>
      if 0 < n ∧ n ≤ u.wire.length ∧ n ≤ b.window then
        (u.inbound.receive (u.wire.take n)).map fun inbound =>
          { u with wire := u.wire.drop n, inbound := inbound }
      else none

/-- The bytes of the requests sent so far have been read or are on the wire. -/
structure Inv (u : Uplink) : Prop where
  encoded : ∀ m ∈ u.sent, m.bytes ≠ none
  read : ∃ stream, u.inbound.Holds stream ∧
    (u.cut = false → stream ++ u.wire = u.sent.flatMap ClientRequest.encoded)

variable {u u' : Uplink}

private theorem inv_init : Inv {} where
  encoded := by simp
  read := ⟨[], Inbound.holds_init, fun _ => rfl⟩

private theorem Inv.send (h : u.Inv) {m : ClientRequest} {taken : Nat}
    (hstep : u.step (.send m taken) = some u') : u'.Inv := by
  obtain ⟨hencoded, stream, hholds, hstream⟩ := h
  rw [step] at hstep
  split at hstep
  · obtain rfl := Option.some.inj hstep
    exact ⟨hencoded, stream, hholds, hstream⟩
  · rename_i data hdata
    split_ifs at hstep
    · obtain rfl := Option.some.inj hstep
      refine ⟨fun m' hm' => ?_, stream, hholds, fun hcut => ?_⟩
      · rcases List.mem_append.mp hm' with hm' | hm'
        · exact hencoded m' hm'
        · rw [List.mem_singleton.mp hm', hdata]
          exact Option.some_ne_none data
      · rw [List.flatMap_append, ← hstream hcut, List.flatMap_singleton, ClientRequest.encoded,
          hdata, Option.getD_some, List.append_assoc]
    · obtain rfl := Option.some.inj hstep
      exact ⟨hencoded, stream, hholds, fun hcut => absurd hcut Bool.true_eq_false.mp⟩

private theorem Inv.recv (h : u.Inv) {n : Nat} (hstep : u.step (.read n) = some u') : u'.Inv := by
  obtain ⟨hencoded, stream, hholds, hstream⟩ := h
  rw [step] at hstep
  split at hstep
  · cases hstep
  · rename_i b hb
    split_ifs at hstep with hn
    obtain ⟨hpos, hwire, hroom⟩ := hn
    have hlength : (u.wire.take n).length = n := by
      rw [List.length_take, Nat.min_eq_left hwire]
    have hfits : ∀ b', u.inbound.buffer = some b' →
        0 < (u.wire.take n).length ∧ (u.wire.take n).length ≤ b'.window := fun b' hb' => by
      obtain rfl := Option.some.inj (hb.symm.trans hb')
      rw [hlength]
      exact ⟨hpos, hroom⟩
    obtain ⟨inbound, hreceive, hholds'⟩ := hholds.receive hfits
    rw [hreceive] at hstep
    obtain rfl := Option.some.inj hstep
    refine ⟨hencoded, _, hholds', fun hcut => ?_⟩
    rw [← hstream hcut, List.append_assoc, List.take_append_drop]

/-- What the server has handed on are the first of the requests sent. -/
theorem Inv.requests (h : u.Inv) (hcut : u.cut = false) :
    u.requests <+: u.sent.map ClientRequest.object ∧
      (u.wire = [] → u.requests = u.sent.map ClientRequest.object) ∧ u.inbound.buffer ≠ none := by
  obtain ⟨hencoded, stream, hholds, hstream⟩ := h
  have hnext : ∀ m ∈ u.sent,
      serverRule.next m.encoded = .item m.frame m.encoded.length := fun m hm =>
    ClientRequest.next_encoded (hencoded m hm)
  obtain ⟨frames, rest, hparse, hstart, hall⟩ :=
    serverRule.parse_beginning rfl hnext (hstream hcut)
  obtain ⟨hframes, hbuffer⟩ := Prod.mk.inj (hholds.parsed.trans hparse)
  have hobjects : ((u.sent.map ClientRequest.frame).filterMap deserializeFrame).map
      Request.object = u.sent.map ClientRequest.object := by
    rw [List.map_filterMap, List.filterMap_map, ← List.filterMap_eq_map]
    refine List.filterMap_congr fun m hm => ?_
    obtain ⟨data, hdata⟩ := Option.ne_none_iff_exists'.mp (hencoded m hm)
    exact ClientRequest.deserialize_frame hdata
  refine ⟨?_, fun hwire => ?_, fun hnone => ?_⟩
  · rw [Uplink.requests, hframes, ← hobjects]
    exact (hstart.filterMap _).map _
  · rw [Uplink.requests, hframes, hall hwire, hobjects]
  · rw [hnone] at hbuffer
    cases hbuffer

end Uplink

/-- In every run of a client and its connection in which no call of `sendall` is cut short, the
requests the server hands on are the beginning of those sent, with all their fields, they are
all of them once every byte has been read, and the connection is kept. -/
theorem requests_arrive (actions : List UplinkAction) :
    Machine.Always Uplink.step (fun u => u.cut = false →
        u.requests <+: u.sent.map ClientRequest.object ∧
          (u.wire = [] → u.requests = u.sent.map ClientRequest.object) ∧
          u.inbound.buffer ≠ none)
      {} actions := by
  refine (Machine.meets_of_forall Uplink.step (P := fun _ => True) (fun _ _ => trivial) _).always
    Uplink.Inv (fun {u a u'} h _ hstep => ?_) (fun h hcut => h.requests hcut) Uplink.inv_init
  cases a with
  | send m taken => exact h.send hstep
  | read n => exact h.recv hstep

end LiquidityArena

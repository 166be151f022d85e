import LiquidityArena.View.Threads
import LiquidityArena.Correctness.QuoteLadder
import LiquidityArena.Correctness.RequestStream

/-!
# The market maker and the engine

The simulator sends the market maker's messages one after the other, and they arrive at the
engine one after the other, while other clients make their calls. Each of them may be lost
as a whole: the simulator only logs an error of `send`, and the server drops a request that
it refuses or that its queue has no room for. What the simulator learns of the fills it
learns late, or not at all.
-/

namespace LiquidityArena

open MatchingEngine

/-- The request that the client makes of a message. -/
def Sent.request : Sent → ClientRequest
  | .cancel id => .cancelOrder ⟨id⟩
  | .newOrder o =>
    .newOrder ⟨o.orderId, o.side.code, o.orderType.code, o.price, o.quantity, 0⟩

/-- The call that the server reads from the bytes of a message. If a field does not fit, nothing is
sent. -/
def Sent.call (msg : Sent) : Option Call :=
  msg.request.bytes.bind fun _ => (deserializeFrame msg.request.frame).map Request.call

/-- The market maker's parameters, where its ids begin and where those of others begin again. -/
structure DeskConfig where
  mm : MarketMakerConfig
  tickSize : ℚ
  connected : Bool
  fees : FeeSchedule
  first : Int
  limit : Int
  widening : mm.Widening
  ids : first ≤ limit

/-- The market maker's simulator and the engine, and how many of its messages have arrived. -/
structure Desk where
  sim : Simulator
  engine : MatchingEngine
  arrived : Nat := 0

/-- It is an agent's turn; the next message of the market maker arrives, or is lost; or another
client makes a call. -/
inductive DeskAction where
  | turn (turn : AgentTurn)
  | arrive (ord : HashOrder)
  | lose
  | other (ord : HashOrder) (call : Call)

/-- The fill is one that the engine has executed. -/
def MatchingEngine.Executed (e : MatchingEngine) (fill : TcpClient.FillMsg) : Prop :=
  ∃ f ∈ e.fills, (f.makerId : Int) = fill.makerId ∧ (f.takerId : Int) = fill.takerId ∧
    f.price = fill.price ∧ f.quantity = fill.quantity

instance (e : MatchingEngine) (fill : TcpClient.FillMsg) : Decidable (e.Executed fill) :=
  inferInstanceAs (Decidable (∃ f ∈ e.fills, _))

namespace DeskConfig

/-- The ids of the market maker. -/
def Own (cfg : DeskConfig) (id : Int) : Prop := cfg.first ≤ id ∧ id < cfg.limit

instance (cfg : DeskConfig) (id : Int) : Decidable (cfg.Own id) :=
  inferInstanceAs (Decidable (_ ∧ _))

/-- A new market maker, with the book it is shown first, and a new engine. -/
def start (cfg : DeskConfig) (book : Option TcpClient.BookUpdateMsg) : Desk where
  sim :=
    { mm := { base := { tickSize := cfg.tickSize, nextOrderIdValue := cfg.first } }
      connected := cfg.connected
      lastBookUpdate := book }
  engine := MatchingEngine.init cfg.fees

/-- One step. The market maker stays within its ids and the others outside them, and the fills that
are reported have been executed. -/
def step (cfg : DeskConfig) (s : Desk) : DeskAction → Option Desk
  | .turn turn =>
    let sim := s.sim.processEvent cfg.mm turn
    if sim.mm.base.nextOrderIdValue ≤ cfg.limit ∧ ∀ fill ∈ sim.fills, s.engine.Executed fill then
      some { s with sim := sim }
    else none
  | .arrive ord =>
    match s.sim.sent[s.arrived]? with
    | none => none
    | some msg =>
      match msg.call with
      | none => some { s with arrived := s.arrived + 1 }
      | some call =>
        (s.engine.perform ord call).map fun engine =>
          { s with engine := engine, arrived := s.arrived + 1 }
  | .lose =>
    match s.sim.sent[s.arrived]? with
    | none => none
    | some _ => some { s with arrived := s.arrived + 1 }
  | .other ord call =>
    if cfg.Own call.id then none
    else (s.engine.perform ord call).map fun engine => { s with engine := engine }

end DeskConfig

/-- The message is not the cancel of an order in the book. -/
def Sent.Idle (book : OrderBook) : Sent → Prop
  | .cancel id => 0 ≤ id → book.orderOf id.toNat = none
  | .newOrder _ => True

instance (book : OrderBook) : DecidablePred (Sent.Idle book)
  | .cancel id => inferInstanceAs (Decidable (0 ≤ id → book.orderOf id.toNat = none))
  | .newOrder _ => inferInstanceAs (Decidable True)

/-- No cancel of an order in the book is lost. -/
def Desk.KeepsCancels (s : Desk) : DeskAction → Prop
  | .lose => ∀ msg ∈ s.sim.sent[s.arrived]?, msg.Idle s.engine.book
  | _ => True

instance (s : Desk) : DecidablePred s.KeepsCancels
  | .lose => inferInstanceAs (Decidable (∀ msg ∈ s.sim.sent[s.arrived]?, msg.Idle s.engine.book))
  | .turn _ => inferInstanceAs (Decidable True)
  | .arrive _ => inferInstanceAs (Decidable True)
  | .other _ _ => inferInstanceAs (Decidable True)

private theorem AgentSide.code_eq_zero {side : AgentSide} : side.code = 0 ↔ side = .bid := by
  cases side <;> decide

private theorem AgentOrderType.code_eq_zero {type : AgentOrderType} :
    type.code = 0 ↔ type = .limit := by
  cases type <;> decide

private theorem Side.ofByte_eq_bid {byte : UInt8} : Side.ofByte byte = .bid ↔ byte.toNat = 0 := by
  rw [ofByte]
  split_ifs with hzero hone
  · exact iff_of_true rfl (congrArg UInt8.toNat hzero)
  · exact iff_of_false (by decide) (by rw [hone]; decide)
  · exact iff_of_false (by simp) fun h => hzero (UInt8.toNat_inj.mp h)

private theorem OrderType.ofByte_eq_limit {byte : UInt8} :
    OrderType.ofByte byte = .limit ↔ byte.toNat = 0 := by
  rw [ofByte]
  split_ifs with hzero hone htwo
  · exact iff_of_true rfl (congrArg UInt8.toNat hzero)
  · exact iff_of_false (by decide) (by rw [hone]; decide)
  · exact iff_of_false (by decide) (by rw [htwo]; decide)
  · exact iff_of_false (by simp) fun h => hzero (UInt8.toNat_inj.mp h)

private theorem TcpClient.fits_of_pack {code : Code} {format : List Code} {v : Int} {vs : List Int}
    {data : List UInt8} (h : pack (code :: format) (v :: vs) = some data) : code.Fits v := by
  rw [pack] at h
  split_ifs at h with hfits
  exact hfits

namespace Sent

/-- A cancel is sent if its id fits. -/
theorem call_cancel_ne_none {id : Int} (h : TcpClient.Code.uint64.Fits id) :
    (Sent.cancel id).call ≠ none := by
  obtain ⟨payload, hpack⟩ : ∃ payload, TcpClient.CancelOrderMsg.pack ⟨id⟩ = some payload :=
    TcpClient.CancelOrderMsg.exists_pack h
  have hlength : payload.length = 8 := TcpClient.length_pack hpack
  have hframe : TcpClient.frame TcpClient.cancelOrderType payload = _ :=
    TcpClient.frame_eq .cancelOrder (by omega)
  rw [call, request, ClientRequest.bytes, TcpClient.sendCancel, hpack, Option.bind_some, hframe]
  exact Option.some_ne_none _

/-- A cancel that names an order id reaches the engine as that cancel. -/
theorem call_cancel {id : Int} {call : Call} (h : (Sent.cancel id).call = some call) :
    ∃ k : OrderId, (k : Int) = id ∧ call = .cancel k := by
  obtain ⟨data, hbytes, hcall⟩ := Option.bind_eq_some_iff.mp h
  obtain ⟨payload, hpack, -⟩ := Option.bind_eq_some_iff.mp hbytes
  have hobject := TcpClient.CancelOrderMsg.deserialize_pack hpack
  rw [request, ClientRequest.frame, hpack, Option.getD_some] at hcall
  obtain rfl := Option.some.inj hcall
  exact ⟨_, Option.some.inj (congrFun hobject .id), rfl⟩

/-- A new order arrives with its id, price and quantity, its side and whether it is limited. -/
theorem call_newOrder {o : AgentOrder} {call : Call} (h : (Sent.newOrder o).call = some call) :
    TcpClient.Code.uint64.Fits o.orderId ∧ ∃ n, call = .newOrder n ∧ (n.id : Int) = o.orderId ∧
      n.price = o.price ∧ n.quantity = o.quantity ∧ (n.side = .bid ↔ o.side = .bid) ∧
      (n.type = .limit ↔ o.orderType = .limit) := by
  obtain ⟨data, hbytes, hcall⟩ := Option.bind_eq_some_iff.mp h
  obtain ⟨payload, hpack, -⟩ := Option.bind_eq_some_iff.mp hbytes
  have hobject := TcpClient.NewOrderMsg.deserialize_pack hpack
  have hbid : (NewOrderMsg.deserialize payload).side = .bid ↔ o.side = .bid := by
    have hside : ((Side.ofByte (payload.getD 8 0)).toByte.toNat : Int) = o.side.code :=
      Option.some.inj (congrFun hobject .side)
    rw [Side.toByte_ofByte] at hside
    rw [← AgentSide.code_eq_zero, ← hside, Int.natCast_eq_zero]
    exact Side.ofByte_eq_bid
  have hlimit : (NewOrderMsg.deserialize payload).type = .limit ↔ o.orderType = .limit := by
    have htype : ((OrderType.ofByte (payload.getD 9 0)).toByte.toNat : Int) = o.orderType.code :=
      Option.some.inj (congrFun hobject .type)
    rw [OrderType.toByte_ofByte] at htype
    rw [← AgentOrderType.code_eq_zero, ← htype, Int.natCast_eq_zero]
    exact OrderType.ofByte_eq_limit
  rw [request, ClientRequest.frame, hpack, Option.getD_some] at hcall
  obtain rfl := Option.some.inj hcall
  generalize NewOrderMsg.deserialize payload = msg at hobject hbid hlimit ⊢
  exact ⟨TcpClient.fits_of_pack hpack, msg.args, rfl, Option.some.inj (congrFun hobject .id),
    Option.some.inj (congrFun hobject .price), Option.some.inj (congrFun hobject .quantity), hbid,
    hlimit⟩

end Sent

end LiquidityArena

import LiquidityArena.View.Legs
import LiquidityArena.Lib.InFlight
import LiquidityArena.Correctness.Desk
import Mathlib.Order.CompletePartialOrder

/-!
# The market maker never trades with itself

Its quotes travel to the engine behind the cancels of the old ones, other clients trade in
between, and it hears of its fills late or not at all. Still no order of its own rests in
the book that the next of its orders to arrive could trade with.
-/

namespace LiquidityArena

open MatchingEngine OrderBook

namespace Sent

/-- What a message that arrives makes of a bound on the orders that rest. -/
def act (resting : Set AgentOrder) : Sent → Set AgentOrder
  | .cancel id => {a | a ∈ resting ∧ a.orderId ≠ id}
  | .newOrder o => {a | a ∈ resting ∨ a = o}

/-- An order that arrives trades with none that may rest. -/
def Clear (resting : Set AgentOrder) : Sent → Prop
  | .cancel _ => True
  | .newOrder o => ∀ a ∈ resting, ¬ a.Crosses o

private theorem act_mono (msg : Sent) : Monotone (act · msg) := by
  intro R R' h a ha
  cases msg with
  | cancel id => exact ⟨h ha.1, ha.2⟩
  | newOrder o => exact ha.imp_left fun ha => h ha

private theorem clear_anti {R R' : Set AgentOrder} {msg : Sent} (h : R ≤ R')
    (hclear : Clear R' msg) :
    Clear R msg := by
  cases msg with
  | cancel id => trivial
  | newOrder o => exact fun a ha => hclear a (h ha)

variable {R : Set AgentOrder} {a : AgentOrder}

private theorem mem_after_cancels {ids : List Int} :
    a ∈ InFlight.after act R (ids.map .cancel) ↔ a ∈ R ∧ a.orderId ∉ ids := by
  induction ids generalizing R with
  | nil => simp [InFlight.after]
  | cons id ids ih =>
    rw [List.map_cons, InFlight.after, List.foldl_cons]
    refine ih.trans ?_
    rw [List.mem_cons, not_or, ← and_assoc]
    rfl

private theorem mem_after_newOrders {orders : List AgentOrder} :
    a ∈ InFlight.after act R (orders.map .newOrder) ↔ a ∈ R ∨ a ∈ orders := by
  induction orders generalizing R with
  | nil => simp [InFlight.after]
  | cons o orders ih =>
    rw [List.map_cons, InFlight.after, List.foldl_cons]
    refine ih.trans ?_
    rw [List.mem_cons, ← or_assoc]
    rfl

/-- What rests after the messages did so before or is one of their orders. -/
theorem of_mem_after {msgs : List Sent} (h : a ∈ InFlight.after act R msgs) :
    a ∈ R ∨ a ∈ ordersOf msgs := by
  induction msgs generalizing R with
  | nil => exact Or.inl h
  | cons msg msgs ih =>
    rcases ih h with ha | ha
    · cases msg with
      | cancel id => exact Or.inl ha.1
      | newOrder o =>
        refine ha.imp_right fun ha => ?_
        rw [ha]
        exact List.mem_cons_self
    · cases msg with
      | cancel id => exact Or.inr ha
      | newOrder o => exact Or.inr (List.mem_cons_of_mem _ ha)

private theorem fine_cancels (ids : List Int) : InFlight.Fine act Clear R (ids.map .cancel) := by
  induction ids generalizing R with
  | nil => trivial
  | cons id ids ih => exact ⟨trivial, ih⟩

/-- Orders of which no two cross may arrive where none of them meets an order it crosses. -/
theorem fine_newOrders {orders : List AgentOrder}
    (hR : ∀ a ∈ R, ∀ o ∈ orders, ¬ a.Crosses o)
    (horders : ∀ o ∈ orders, ∀ o' ∈ orders, ¬ o.Crosses o') :
    InFlight.Fine act Clear R (orders.map .newOrder) := by
  induction orders generalizing R with
  | nil => trivial
  | cons o orders ih =>
    refine ⟨fun a ha => hR a ha o List.mem_cons_self, ih (fun a ha o' ho' => ?_)
      fun o₁ ho₁ o₂ ho₂ => horders o₁ (List.mem_cons_of_mem _ ho₁) o₂ (List.mem_cons_of_mem _ ho₂)⟩
    rcases ha with ha | rfl
    · exact hR a ha o' (List.mem_cons_of_mem _ ho')
    · exact horders a List.mem_cons_self o' (List.mem_cons_of_mem _ ho')

end Sent

/-- A fill that is handed out is recorded. -/
theorem Simulator.mem_fills_receiveAll (messages : List TcpClient.Message) {s : Simulator}
    {fill : TcpClient.FillMsg} (h : fill ∈ s.fills) :
    fill ∈ (messages.foldl Simulator.receive s).fills := by
  induction messages generalizing s with
  | nil => exact h
  | cons message messages ih =>
    refine ih ?_
    cases message with
    | bookUpdate msg => exact h
    | fill msg => exact List.mem_append_left _ h

private theorem Simulator.next_receiveAll (messages : List TcpClient.Message) (s : Simulator) :
    (messages.foldl Simulator.receive s).mm.base.nextOrderIdValue = s.mm.base.nextOrderIdValue := by
  induction messages generalizing s with
  | nil => rfl
  | cons message messages ih =>
    rw [List.foldl_cons, ih]
    cases message with
    | bookUpdate msg => rfl
    | fill fill => exact (onFill_shrinks s.mm.base fill).2

namespace Desk

/-- The orders that have arrived. -/
def arrivals (s : Desk) : List AgentOrder := ordersOf (s.sim.sent.take s.arrived)

/-- The messages on their way. -/
def queue (s : Desk) : List Sent := s.sim.sent.drop s.arrived

/-- The orders that have arrived and rest in the book. -/
def resting (s : Desk) (v : BookView) : Set AgentOrder :=
  {a | a ∈ s.arrivals ∧ ∃ o ∈ v.orders, (o.id : Int) = a.orderId}

/-- An order in the book with an id of the market maker is one that has arrived, or the rest of
it. -/
def Stands (cfg : DeskConfig) (s : Desk) (o : Order) : Prop :=
  cfg.Own o.id → ∃ a ∈ s.arrivals, a.orderId = o.id ∧ (o.side = .bid ↔ a.side = .bid) ∧
    o.price = a.price ∧ o.remaining ≤ a.quantity ∧ TcpClient.Code.uint64.Fits a.orderId

/-- A fill has at most one leg of the market maker, which has arrived and is gone if all of it was
executed. -/
structure Booked (cfg : DeskConfig) (arrivals : List AgentOrder) (v : BookView) (f : FillMsg) :
    Prop where
  apart : ¬ (cfg.Own f.makerId ∧ cfg.Own f.takerId)
  leg : ∀ id, id = f.makerId ∨ id = f.takerId → cfg.Own id → ∃ a ∈ arrivals, a.orderId = id ∧
    (a.quantity ≤ f.quantity → v.All (·.id ≠ id))

/-- What holds of the market maker's quotes wherever they are: those on their way cross none that
may rest when they arrive, and those that may rest in the end are active. -/
structure Inv (cfg : DeskConfig) (s : Desk) (v : BookView) : Prop where
  shows : s.engine.book.Shows v
  tidy : s.sim.Tidy cfg.mm
  next : cfg.first ≤ s.sim.mm.base.nextOrderIdValue ∧ s.sim.mm.base.nextOrderIdValue ≤ cfg.limit
  sent : ∀ o ∈ ordersOf s.sim.sent, cfg.first ≤ o.orderId ∧ o.orderType = .limit
  distinct : ((ordersOf s.sim.sent).map (·.orderId)).Nodup
  arrived : s.arrived ≤ s.sim.sent.length
  stands : v.All (s.Stands cfg)
  fine : InFlight.Fine Sent.act Sent.Clear (s.resting v) s.queue
  covered : ∀ a ∈ InFlight.after Sent.act (s.resting v) s.queue,
    ∃ active ∈ s.sim.mm.base.activeOrders, active.orderId = a.orderId
  booked : ∀ f ∈ s.engine.fills, Booked cfg s.arrivals v f

variable {cfg : DeskConfig} {s s' : Desk} {v v' : BookView}

private theorem arrivals_append_queue (s : Desk) :
    s.arrivals ++ ordersOf s.queue = ordersOf s.sim.sent := by
  rw [arrivals, queue, ← ordersOf_append, List.take_append_drop]

private theorem Inv.own (h : s.Inv cfg v) {o : AgentOrder} (ho : o ∈ ordersOf s.sim.sent) :
    cfg.Own o.orderId :=
  ⟨(h.sent o ho).1, (h.tidy.fresh o (mem_ordersOf.mp ho)).trans_le h.next.2⟩

/-- Orders that were sent are known by their ids. -/
theorem Inv.eq_of_id (h : s.Inv cfg v) {o o' : AgentOrder} (ho : o ∈ ordersOf s.sim.sent)
    (ho' : o' ∈ ordersOf s.sim.sent) (hid : o.orderId = o'.orderId) : o = o' :=
  List.inj_on_of_nodup_map h.distinct ho ho' hid

private theorem mem_sent_of_arrivals {o : AgentOrder} (ho : o ∈ s.arrivals) :
    o ∈ ordersOf s.sim.sent :=
  s.arrivals_append_queue ▸ List.mem_append_left _ ho

private theorem mem_sent_of_queue {o : AgentOrder} (ho : o ∈ ordersOf s.queue) :
    o ∈ ordersOf s.sim.sent :=
  s.arrivals_append_queue ▸ List.mem_append_right _ ho

/-- An order that has arrived is not on its way. -/
theorem Inv.id_ne (h : s.Inv cfg v) {o o' : AgentOrder} (ho : o ∈ s.arrivals)
    (ho' : o' ∈ ordersOf s.queue) : o.orderId ≠ o'.orderId := by
  have hdistinct := h.distinct
  rw [← s.arrivals_append_queue, List.map_append] at hdistinct
  exact (List.nodup_append.mp hdistinct).2.2 _ (List.mem_map_of_mem ho) _ (List.mem_map_of_mem ho')

/-- A fill that is reported covers no quote that may rest in the end. -/
theorem Inv.fill (h : s.Inv cfg v) {fill : TcpClient.FillMsg} (hfill : s.engine.Executed fill) :
    ({ s with sim := s.sim.receive (.fill fill) }).Inv cfg v := by
  have hnext := (Simulator.onFill_shrinks s.sim.mm.base fill).2
  refine { h with tidy := h.tidy.receive (.fill fill), next := ?_, covered := fun a ha => ?_ }
  · exact ⟨h.next.1.trans_eq hnext.symm, hnext.trans_le h.next.2⟩
  · obtain ⟨active, hactive, hid⟩ := h.covered a ha
    rcases Simulator.active_or_filled fill hactive with hstays | ⟨filled, hmem, hsame, hleg, hfull⟩
    · exact ⟨active, hstays, hid⟩
    · exfalso
      have ha' : a ∈ s.resting v ∨ a ∈ ordersOf s.queue := Sent.of_mem_after ha
      have hsent : a ∈ ordersOf s.sim.sent :=
        ha'.elim (fun ha' => mem_sent_of_arrivals ha'.1) mem_sent_of_queue
      obtain rfl : filled = a :=
        h.tidy.agree a (mem_ordersOf.mp hsent) filled hmem (hsame.trans hid)
      obtain ⟨f, hf, hmaker, htaker, -, hquantity⟩ := hfill
      have hlegs : ∃ id : OrderId, (id = f.makerId ∨ id = f.takerId) ∧
          (id : Int) = filled.orderId :=
        hleg.elim (fun hleg => ⟨_, Or.inl rfl, hmaker.trans hleg.symm⟩)
          fun hleg => ⟨_, Or.inr rfl, htaker.trans hleg.symm⟩
      obtain ⟨id, hid', heq⟩ := hlegs
      obtain ⟨a', ha'', hida, hgone⟩ := (h.booked f hf).leg id hid' (heq ▸ h.own hsent)
      obtain rfl : a' = filled := h.eq_of_id (mem_sent_of_arrivals ha'') hsent (hida.trans heq)
      rcases ha' with ⟨-, o, ho, hoid⟩ | ha'
      · exact hgone (hquantity ▸ hfull) o ho (Int.ofNat.inj (hoid.trans hida))
      · exact h.id_ne ha'' ha' rfl

/-- Messages of which the fills have been executed are handed out. -/
theorem Inv.receiveAll (messages : List TcpClient.Message) (h : s.Inv cfg v)
    (hfills : ∀ fill ∈ (messages.foldl Simulator.receive s.sim).fills, s.engine.Executed fill) :
    ({ s with sim := messages.foldl Simulator.receive s.sim }).Inv cfg v := by
  induction messages generalizing s with
  | nil => exact h
  | cons message messages ih =>
    have hmessage : ({ s with sim := s.sim.receive message }).Inv cfg v := by
      cases message with
      | bookUpdate msg => exact { h with tidy := h.tidy.receive (.bookUpdate msg) }
      | fill fill => exact h.fill (hfills fill (Simulator.mem_fills_receiveAll messages (by
          exact List.mem_append_right _ List.mem_cons_self)))
    exact ih hmessage hfills

/-- What is sent goes to the end of the queue. -/
theorem arrivals_queue_send (h : s.arrived ≤ s.sim.sent.length) {sim : Simulator} {msgs : List Sent}
    (hsent : sim.sent = s.sim.sent ++ msgs) :
    ({ s with sim := sim }).arrivals = s.arrivals ∧
      ({ s with sim := sim }).queue = s.queue ++ msgs := by
  refine ⟨?_, ?_⟩
  · rw [arrivals, arrivals, hsent, List.take_append_of_le_length h]
  · rw [queue, queue, hsent, List.drop_append_of_le_length h]

/-- The quotes are replaced: the cancels of the old ones go ahead of the new ones. -/
theorem Inv.requoted (h : s.Inv cfg v) {mm : MarketMaker} {orders : List AgentOrder}
    (hplaced : MarketMaker.Placed s.sim.mm.base.nextOrderIdValue (2 * cfg.mm.numLevels)
      (mm.base, orders))
    {inventory : Int} (hquoted : MarketMaker.Quoted cfg.mm inventory orders)
    (hlimit : mm.base.nextOrderIdValue ≤ cfg.limit) (hconn : s.sim.connected = true) :
    ({ s with sim := s.sim.requoted mm orders }).Inv cfg v := by
  have hsent : (s.sim.requoted mm orders).sent = s.sim.sent ++
      ((s.sim.mm.base.activeOrders.map (·.orderId)).map .cancel ++ orders.map .newOrder) := by
    rw [Simulator.requoted, hconn, ← List.append_assoc]
    rfl
  have hmem : ordersOf (s.sim.requoted mm orders).sent = ordersOf s.sim.sent ++ orders := by
    rw [hsent, ordersOf_append, ordersOf_append, ordersOf_cancels, ordersOf_newOrders,
      List.nil_append]
  have hactive : mm.base.activeOrders = orders := hplaced.active
  obtain ⟨harrivals, hqueue⟩ := arrivals_queue_send h.arrived hsent
  have hresting : ({ s with sim := s.sim.requoted mm orders } : Desk).resting v = s.resting v := by
    rw [resting, resting, harrivals]
  -- the cancels leave none of the old quotes
  have hnone : ∀ a, a ∉ InFlight.after Sent.act (InFlight.after Sent.act (s.resting v) s.queue)
      ((s.sim.mm.base.activeOrders.map (·.orderId)).map .cancel) := by
    intro a ha
    obtain ⟨ha, hactive⟩ := Sent.mem_after_cancels.mp ha
    obtain ⟨active, hmem, hid⟩ := h.covered a ha
    exact hactive (List.mem_map.mpr ⟨active, hmem, hid⟩)
  refine
    { shows := h.shows
      tidy := h.tidy.requoted hplaced
      next := ⟨h.next.1.trans hplaced.next, hlimit⟩
      sent := fun o ho => ?_
      distinct := ?_
      arrived := ?_
      stands := fun o ho hown => ?_
      fine := ?_
      covered := fun a ha => ?_
      booked := fun f hf => ?_ }
  · rw [hmem] at ho
    rcases List.mem_append.mp ho with ho | ho
    · exact h.sent o ho
    · exact ⟨h.next.1.trans (hplaced.ids o ho).1, (hquoted.limit o ho).1⟩
  · rw [hmem, List.map_append]
    refine List.nodup_append.mpr ⟨h.distinct, hquoted.distinct, fun id hid id' hid' => ?_⟩
    obtain ⟨o, ho, rfl⟩ := List.mem_map.mp hid
    obtain ⟨o', ho', rfl⟩ := List.mem_map.mp hid'
    exact ((h.tidy.fresh o (mem_ordersOf.mp ho)).trans_le (hplaced.ids o' ho').1).ne
  · rw [hsent, List.length_append]
    exact h.arrived.trans (Nat.le_add_right _ _)
  · rw [harrivals]
    exact h.stands o ho hown
  · rw [hresting, hqueue, InFlight.fine_append, InFlight.fine_append]
    exact ⟨h.fine, Sent.fine_cancels _, Sent.fine_newOrders (fun a ha => absurd ha (hnone a))
      fun o ho o' ho' => hquoted.not_crosses ho ho'⟩
  · rw [hresting, hqueue, InFlight.after_append, InFlight.after_append,
      Sent.mem_after_newOrders] at ha
    exact ⟨a, hactive.symm ▸ ha.resolve_left (hnone a), rfl⟩
  · rw [harrivals]
    exact h.booked f hf

/-- Without a connection nothing is sent. -/
theorem Inv.offline (h : s.Inv cfg v) (hconn : s.sim.connected = false) {sim : Simulator}
    (htidy : sim.Tidy cfg.mm) (hsent : sim.sent = s.sim.sent)
    (hnext : cfg.first ≤ sim.mm.base.nextOrderIdValue ∧ sim.mm.base.nextOrderIdValue ≤ cfg.limit) :
    ({ s with sim := sim }).Inv cfg v := by
  have hnothing := h.tidy.connected hconn
  obtain ⟨harrivals, hqueue⟩ := arrivals_queue_send h.arrived
    (hsent.trans (List.append_nil _).symm)
  have hempty : s.arrivals = [] ∧ s.queue = [] := by
    rw [arrivals, queue, hnothing]
    simp [ordersOf]
  refine
    { shows := h.shows
      tidy := htidy
      next := hnext
      sent := fun o ho => h.sent o (hsent ▸ ho)
      distinct := hsent ▸ h.distinct
      arrived := hsent ▸ h.arrived
      stands := fun o ho hown => ?_
      fine := ?_
      covered := fun a ha => ?_
      booked := fun f hf => ?_ }
  · rw [harrivals]
    exact h.stands o ho hown
  · rw [hqueue, hempty.2]
    trivial
  · rw [hqueue, hempty.2] at ha
    have harrived : a ∈ ({ s with sim := sim } : Desk).arrivals := ha.1
    rw [harrivals, hempty.1] at harrived
    cases harrived
  · rw [harrivals]
    exact h.booked f hf

/-- A turn keeps the quotes apart. -/
theorem Inv.turn (h : s.Inv cfg v) {turn : AgentTurn}
    (hlimit : (s.sim.processEvent cfg.mm turn).mm.base.nextOrderIdValue ≤ cfg.limit)
    (hfills : ∀ fill ∈ (s.sim.processEvent cfg.mm turn).fills, s.engine.Executed fill) :
    ({ s with sim := s.sim.processEvent cfg.mm turn }).Inv cfg v := by
  obtain ⟨msgs, hmsgs, hquoted⟩ := s.sim.processEvent_quoted cfg.widening turn
  rcases Simulator.processEvent_cases h.tidy turn with
    ⟨messages, heq⟩ | ⟨mm, orders, messages, heq, hplaced⟩
  · rw [heq] at hfills ⊢
    exact h.receiveAll messages hfills
  · have hbase : (s.sim.processEvent cfg.mm turn).mm.base.nextOrderIdValue =
        mm.base.nextOrderIdValue := by
      rw [heq, Simulator.next_receiveAll]
      rfl
    rw [hbase] at hlimit
    cases hconn : s.sim.connected with
    | false =>
      refine h.offline hconn (h.tidy.turn turn) ?_ (hbase ▸ ⟨h.next.1.trans hplaced.next, hlimit⟩)
      rw [heq, Simulator.receive_sent, Simulator.requoted, hconn]
      rfl
    | true =>
      have hnew : msgs = (s.sim.mm.base.activeOrders.map (·.orderId)).map .cancel ++
          orders.map .newOrder := by
        rw [heq, Simulator.receive_sent, Simulator.requoted, hconn, if_pos rfl,
          List.append_assoc] at hmsgs
        exact (List.append_cancel_left hmsgs).symm
      rw [hnew, ordersOf_append, ordersOf_cancels, ordersOf_newOrders, List.nil_append] at hquoted
      rw [heq] at hfills ⊢
      exact (h.requoted hplaced hquoted hlimit hconn).receiveAll messages hfills

/-- What the market maker's own order does when it is entered: it is limited, it has arrived, and it
is apart from the others on the other side. -/
structure Enters (cfg : DeskConfig) (arrivals : List AgentOrder) (v : BookView) (n : NewOrder) :
    Prop where
  type : n.type = .limit
  arrived : ∃ a ∈ arrivals, a.orderId = n.id ∧ a.quantity = n.quantity
  apart : ∀ x ∈ v.orders, cfg.Own x.id → x.side.isBid = !n.side.isBid → Incompatible n.order x.price

/-- The fills of a call are booked, and the earlier ones stay so. -/
theorem Inv.booked_call (h : s.Inv cfg v) {call : Call} {trades : List (Order × Int)}
    (heffect : v.Effect call trades v') {arrivals : List AgentOrder}
    (harrivals : ∀ a ∈ s.arrivals, a ∈ arrivals)
    (hback : ∀ a ∈ s.arrivals, ∀ x ∈ v'.orders, (x.id : Int) = a.orderId →
      ∃ o ∈ v.orders, o.id = x.id)
    (henters : ∀ n, call = .newOrder n → cfg.Own n.id → Enters cfg arrivals v n) :
    ∀ f ∈ s.engine.fills ++ tradeMsgs s.engine.fees call.id trades, Booked cfg arrivals v' f := by
  intro f hf
  rcases List.mem_append.mp hf with hf | hf
  · obtain ⟨hapart, hleg⟩ := h.booked f hf
    refine ⟨hapart, fun id hid hown => ?_⟩
    obtain ⟨a, ha, haid, hgone⟩ := hleg id hid hown
    refine ⟨a, harrivals a ha, haid, fun hle x hx hxid => ?_⟩
    obtain ⟨o, ho, hoid⟩ := hback a ha x hx (by rw [hxid, haid])
    exact hgone hle o ho (hoid.trans hxid)
  · obtain ⟨trade, htrade, rfl⟩ := List.mem_map.mp hf
    obtain ⟨n, rfl, -, ⟨x, hx, hxid, hside, hcompatible, hgone⟩, htaker⟩ :=
      heffect.legs h.shows.sound htrade
    have hmaker : (fillMsg s.engine.fees trade.1 (Call.newOrder n).id trade.2).makerId = x.id :=
      hxid.symm
    refine ⟨fun ⟨hmine, hown⟩ => ?_, fun id hid hown => ?_⟩
    · rw [hmaker] at hmine
      exact hcompatible ((henters n rfl hown).apart x hx hmine hside)
    · rw [hmaker] at hid
      rcases hid with rfl | rfl
      · obtain ⟨a, ha, haid, -, -, hremaining, -⟩ := h.stands x hx hown
        exact ⟨a, harrivals a ha, haid, fun hle => hgone (hremaining.trans hle)⟩
      · obtain ⟨htype, ⟨a, ha, haid, hquantity⟩, -⟩ := henters n rfl hown
        exact ⟨a, ha, haid, fun hle => htaker (by rw [htype]; decide) (hquantity ▸ hle)⟩

private theorem stands_reduced {o o' : Order} (h : s.Stands cfg o) (hreduced : o.Reduced o') :
    s.Stands cfg o' := by
  intro hown
  rw [hreduced.id] at hown ⊢
  obtain ⟨a, ha, hid, hside, hprice, hremaining, hfits⟩ := h hown
  exact ⟨a, ha, hid, hreduced.side ▸ hside, hreduced.price.trans hprice,
    hreduced.remaining.trans hremaining, hfits⟩

/-- A call of another client keeps the quotes apart. -/
theorem Inv.other (h : s.Inv cfg v) {call : Call} {trades : List (Order × Int)}
    (hown : ¬ cfg.Own call.id) {engine : MatchingEngine} (hshows : engine.book.Shows v')
    (heffect : v.Effect call trades v')
    (hfills : engine.fills = s.engine.fills ++ tradeMsgs s.engine.fees call.id trades) :
    ({ s with engine := engine }).Inv cfg v' := by
  have hback : ∀ a ∈ s.arrivals, ∀ x ∈ v'.orders, (x.id : Int) = a.orderId →
      ∃ o ∈ v.orders, o.id = x.id := by
    intro a ha x hx hid
    refine (heffect.ids_call h.shows.sound x hx).resolve_left fun hcall => hown ?_
    rw [← hcall, hid]
    exact h.own (mem_sent_of_arrivals ha)
  have hresting : ({ s with engine := engine } : Desk).resting v' ≤ s.resting v := by
    rintro a ⟨ha, x, hx, hid⟩
    obtain ⟨o, ho, hoid⟩ := hback a ha x hx hid
    exact ⟨ha, o, ho, by rw [hoid, hid]⟩
  refine { h with
    shows := hshows
    stands := heffect.all_reduced h.shows.sound ?_ stands_reduced h.stands
    fine := h.fine.anti Sent.act_mono Sent.clear_anti hresting
    covered := fun a ha => h.covered a (InFlight.after_mono Sent.act_mono s.queue hresting ha)
    booked := ?_ }
  · have hskip : ∀ {o : Order}, o.id = call.id → s.Stands cfg o := fun hid hmine =>
      absurd (hid ▸ hmine) hown
    cases call with
    | newOrder n => exact fun _ => hskip n.id_order
    | cancel id => trivial
    | modify id price qty =>
      exact fun o _ hid _ _ _ => hskip ((BookView.id_reentry o price qty).trans hid)
  · rw [hfills]
    refine h.booked_call heffect (fun _ ha => ha) hback fun n hn hmine => ?_
    subst hn
    exact absurd hmine hown

private theorem Stands.mono {arrived : Nat} {engine : MatchingEngine} {o : Order}
    (h : s.Stands cfg o)
    (harrivals : ∀ a ∈ s.arrivals, a ∈ ({ s with engine, arrived } : Desk).arrivals) :
    ({ s with engine, arrived } : Desk).Stands cfg o := fun hown =>
  (h hown).imp fun _ ha => ⟨harrivals _ ha.1, ha.2⟩

/-- The message that arrives next, as the first of the queue. -/
theorem arrivals_queue_arrive {msg : Sent} (hmsg : s.sim.sent[s.arrived]? = some msg)
    (engine : MatchingEngine) :
    ({ s with engine, arrived := s.arrived + 1 } : Desk).arrivals = s.arrivals ++ ordersOf [msg] ∧
      s.queue = msg :: ({ s with engine, arrived := s.arrived + 1 } : Desk).queue ∧
      s.arrived < s.sim.sent.length := by
  obtain ⟨hlt, rfl⟩ := List.getElem?_eq_some_iff.mp hmsg
  refine ⟨?_, List.drop_eq_getElem_cons hlt, hlt⟩
  rw [arrivals, arrivals, ← ordersOf_append, List.take_append_getElem hlt]

/-- The next message arrives, and the engine acts on it or not. -/
theorem Inv.advance (h : s.Inv cfg v) {msg : Sent} (hmsg : s.sim.sent[s.arrived]? = some msg)
    {engine : MatchingEngine} (hshows : engine.book.Shows v')
    (hstands : v'.All (({ s with engine, arrived := s.arrived + 1 } : Desk).Stands cfg))
    (hresting : ({ s with engine, arrived := s.arrived + 1 } : Desk).resting v' ≤
      Sent.act (s.resting v) msg)
    (hbooked : ∀ f ∈ engine.fills, Booked cfg (s.arrivals ++ ordersOf [msg]) v' f) :
    ({ s with engine, arrived := s.arrived + 1 } : Desk).Inv cfg v' := by
  obtain ⟨harrivals, hqueue, hlt⟩ := arrivals_queue_arrive hmsg engine
  have hfine := h.fine
  have hcovered := h.covered
  rw [hqueue] at hfine hcovered
  exact { h with
    shows := hshows
    arrived := hlt
    stands := hstands
    fine := hfine.2.anti Sent.act_mono Sent.clear_anti hresting
    covered := fun a ha => hcovered a (InFlight.after_mono Sent.act_mono _ hresting ha)
    booked := harrivals ▸ hbooked }

private theorem Booked.mono {arrivals arrivals' : List AgentOrder} {f : FillMsg}
    (h : Booked cfg arrivals v f) (hsub : ∀ a ∈ arrivals, a ∈ arrivals') :
    Booked cfg arrivals' v f :=
  ⟨h.apart, fun id hid hown => (h.leg id hid hown).imp fun _ ha => ⟨hsub _ ha.1, ha.2⟩⟩

/-- An order that does not reach the engine leaves the quotes apart. -/
theorem Inv.lost (h : s.Inv cfg v) {o : AgentOrder}
    (hmsg : s.sim.sent[s.arrived]? = some (.newOrder o)) :
    ({ s with arrived := s.arrived + 1 }).Inv cfg v := by
  obtain ⟨harrivals, -, -⟩ := arrivals_queue_arrive hmsg s.engine
  have hsub : ∀ a ∈ s.arrivals, a ∈ s.arrivals ++ ordersOf [.newOrder o] :=
    fun a ha => List.mem_append_left _ ha
  refine h.advance hmsg h.shows (fun x hx => (h.stands x hx).mono (harrivals ▸ hsub)) ?_
    fun f hf => (h.booked f hf).mono hsub
  rintro a ⟨ha, x, hx, hid⟩
  rw [harrivals] at ha
  exact (List.mem_append.mp ha).imp (fun ha => ⟨ha, x, hx, hid⟩) List.mem_singleton.mp

/-- A cancel that names no order that rests leaves the quotes apart when it does not arrive. -/
theorem Inv.idle (h : s.Inv cfg v) {id : Int} (hmsg : s.sim.sent[s.arrived]? = some (.cancel id))
    (hidle : ∀ a ∈ s.resting v, a.orderId ≠ id) :
    ({ s with arrived := s.arrived + 1 }).Inv cfg v := by
  obtain ⟨harrivals, -, -⟩ := arrivals_queue_arrive hmsg s.engine
  have hsame : s.arrivals ++ ordersOf [.cancel id] = s.arrivals := List.append_nil _
  rw [hsame] at harrivals
  refine h.advance hmsg h.shows
    (fun x hx => (h.stands x hx).mono fun a ha => harrivals.symm ▸ ha) ?_ (hsame.symm ▸ h.booked)
  rintro a ⟨ha, hrests⟩
  rw [harrivals] at ha
  exact ⟨⟨ha, hrests⟩, hidle a ⟨ha, hrests⟩⟩

/-- A cancel whose id does not fit names no order that rests. -/
theorem Inv.unsent (h : s.Inv cfg v) {id : Int} (hmsg : s.sim.sent[s.arrived]? = some (.cancel id))
    (hcall : (Sent.cancel id).call = none) : ({ s with arrived := s.arrived + 1 }).Inv cfg v := by
  refine h.idle hmsg ?_
  rintro a ⟨ha, x, hx, hid⟩ heq
  have hown := h.own (mem_sent_of_arrivals ha)
  obtain ⟨a', -, hid', -, -, -, hfits⟩ := h.stands x hx (hid ▸ hown)
  rw [hid', hid, heq] at hfits
  exact Sent.call_cancel_ne_none hfits hcall

/-- A message that is lost leaves the quotes apart unless it is the cancel of an order in the
book. -/
theorem Inv.lose (h : s.Inv cfg v) {msg : Sent} (hmsg : s.sim.sent[s.arrived]? = some msg)
    (hidle : msg.Idle s.engine.book) : ({ s with arrived := s.arrived + 1 }).Inv cfg v := by
  cases msg with
  | cancel id =>
    refine h.idle hmsg ?_
    rintro a ⟨-, x, hx, hid⟩ heq
    obtain rfl : (x.id : Int) = id := hid.trans heq
    exact h.shows.orderOf_eq_none_iff.mp (hidle (Int.natCast_nonneg x.id)) x hx rfl
  | newOrder o => exact h.lost hmsg

/-- A cancel removes the order that it names. -/
theorem Inv.cancel (h : s.Inv cfg v) {id : Int} (hmsg : s.sim.sent[s.arrived]? = some (.cancel id))
    {k : OrderId} (hk : (k : Int) = id) {trades : List (Order × Int)}
    (heffect : v.Effect (.cancel k) trades v') {engine : MatchingEngine}
    (hshows : engine.book.Shows v')
    (hfills : engine.fills = s.engine.fills ++ tradeMsgs s.engine.fees k trades) :
    ({ s with engine, arrived := s.arrived + 1 } : Desk).Inv cfg v' := by
  obtain ⟨harrivals, -, -⟩ := arrivals_queue_arrive hmsg engine
  have hsame : s.arrivals ++ ordersOf [.cancel id] = s.arrivals := List.append_nil _
  rw [hsame] at harrivals
  have hgone := heffect.of_cancel
  refine h.advance hmsg hshows
    (fun x hx => (h.stands x (hgone x hx).1).mono fun a ha => harrivals.symm ▸ ha) ?_ ?_
  · rintro a ⟨ha, x, hx, hid⟩
    rw [harrivals] at ha
    refine ⟨⟨ha, x, (hgone x hx).1, hid⟩, fun heq => (hgone x hx).2 ?_⟩
    exact Int.ofNat.inj (hid.trans (heq.trans hk.symm))
  · rw [hsame, hfills]
    exact h.booked_call heffect (fun _ ha => ha) (fun a ha x hx _ => ⟨x, (hgone x hx).1, rfl⟩)
      fun n hn => by cases hn

/-- Of two orders that do not cross, the one in the book does not reach the price of the other. -/
private theorem better_of_not_crosses {a o : AgentOrder} (hclear : ¬ a.Crosses o) {x : Order}
    (haside : x.side = .bid ↔ a.side = .bid) (haprice : x.price = a.price) {n : NewOrder}
    (hside : n.side = .bid ↔ o.side = .bid) (hprice : n.price = o.price)
    (hopposite : x.side.isBid = !n.side.isBid) : Better n.side.isBid x.price n.price := by
  rw [haprice, hprice]
  cases ho : o.side with
  | bid =>
    have hbid : n.side.isBid = true := Side.isBid_iff.mpr (hside.mpr ho)
    have hask : a.side = .ask := by
      cases hcase : a.side with
      | ask => rfl
      | bid => simp [Side.isBid_iff.mpr (haside.mpr hcase), hbid] at hopposite
    rw [hbid]
    exact not_le.mp fun hle => hclear (Or.inr ⟨hask, ho, hle⟩)
  | ask =>
    have hask : n.side.isBid = false := by
      refine Bool.eq_false_iff.mpr fun hbid => ?_
      rw [hside.mp (Side.isBid_iff.mp hbid)] at ho
      cases ho
    have hbid : a.side = .bid := by
      rw [hask, Bool.not_false] at hopposite
      exact haside.mp (Side.isBid_iff.mp hopposite)
    rw [hask]
    exact not_le.mp fun hle => hclear (Or.inl ⟨hbid, ho, hle⟩)

/-- An order of the market maker enters apart from those of its own on the other side. -/
theorem Inv.newOrder (h : s.Inv cfg v) {o : AgentOrder}
    (hmsg : s.sim.sent[s.arrived]? = some (.newOrder o)) {n : NewOrder}
    (hcall : (Sent.newOrder o).call = some (.newOrder n)) {trades : List (Order × Int)}
    (heffect : v.Effect (.newOrder n) trades v') {engine : MatchingEngine}
    (hshows : engine.book.Shows v')
    (hfills : engine.fills = s.engine.fills ++ tradeMsgs s.engine.fees n.id trades) :
    ({ s with engine, arrived := s.arrived + 1 } : Desk).Inv cfg v' := by
  obtain ⟨harrivals, hqueue, -⟩ := arrivals_queue_arrive hmsg engine
  have hsub : ∀ a ∈ s.arrivals, a ∈ s.arrivals ++ ordersOf [.newOrder o] :=
    fun a ha => List.mem_append_left _ ha
  have hnew : o ∈ s.arrivals ++ ordersOf [.newOrder o] := List.mem_append_right _ (by
    exact List.mem_singleton_self o)
  have hwaiting : o ∈ ordersOf s.queue := by
    rw [hqueue]
    exact List.mem_cons_self
  obtain ⟨hfits, n', heq, hid, hprice, hquantity, hside, htype⟩ := Sent.call_newOrder hcall
  obtain rfl := Call.newOrder.inj heq
  have hlimit : n.type = .limit := htype.mpr (h.sent o (mem_sent_of_queue hwaiting)).2
  have hmarket : n.type ≠ .market := by
    rw [hlimit]
    decide
  have hback : ∀ a ∈ s.arrivals, ∀ x ∈ v'.orders, (x.id : Int) = a.orderId →
      ∃ y ∈ v.orders, y.id = x.id := by
    intro a ha x hx hxid
    refine (heffect.ids_call h.shows.sound x hx).resolve_left fun hself => ?_
    have hxn : x.id = n.id := hself
    exact h.id_ne ha hwaiting (by rw [← hxid, hxn, hid])
  refine h.advance hmsg hshows ?_ ?_ ?_
  · refine heffect.all_reduced h.shows.sound (fun _ _ => ?_) stands_reduced fun x hx =>
      (h.stands x hx).mono (harrivals ▸ hsub)
    refine ⟨o, harrivals ▸ hnew, ?_, ?_, ?_, ?_, hfits⟩
    · rw [n.id_order, hid]
    · rw [n.side_order, hside]
    · rw [n.price_order hmarket, hprice]
    · rw [n.remaining_order, hquantity]
  · rintro a ⟨ha, x, hx, hxid⟩
    rw [harrivals] at ha
    refine (List.mem_append.mp ha).imp (fun ha => ?_) List.mem_singleton.mp
    obtain ⟨y, hy, hyid⟩ := hback a ha x hx hxid
    exact ⟨ha, y, hy, by rw [hyid, hxid]⟩
  · rw [hfills]
    refine h.booked_call heffect hsub hback fun n' hn' _ => ?_
    obtain rfl := Call.newOrder.inj hn'
    refine ⟨hlimit, ⟨o, hnew, hid.symm, hquantity.symm⟩, fun x hx hown hxside => ?_⟩
    obtain ⟨a, ha, haid, haside, haprice, -, -⟩ := h.stands x hx hown
    have hclear : ¬ a.Crosses o := by
      have hfine := h.fine
      rw [hqueue] at hfine
      exact hfine.1 a ⟨ha, x, hx, haid.symm⟩
    rw [BookView.incompatible_iff (n.limited_order hmarket), n.side_order, n.price_order hmarket]
    exact better_of_not_crosses hclear haside haprice hside hprice hxside

/-- Every step that loses no cancel of an order in the book keeps the quotes apart. -/
theorem Inv.step (h : ∃ v, s.Inv cfg v) {a : DeskAction} (hkeeps : s.KeepsCancels a)
    (hstep : cfg.step s a = some s') : ∃ v, s'.Inv cfg v := by
  obtain ⟨v, h⟩ := h
  cases a with
  | turn turn =>
    rw [DeskConfig.step] at hstep
    split_ifs at hstep with hturn
    obtain rfl := Option.some.inj hstep
    exact ⟨v, h.turn hturn.1 hturn.2⟩
  | arrive ord =>
    rw [DeskConfig.step] at hstep
    split at hstep
    · cases hstep
    next msg hmsg =>
      split at hstep
      next hcall =>
        obtain rfl := Option.some.inj hstep
        cases msg with
        | cancel id => exact ⟨v, h.unsent hmsg hcall⟩
        | newOrder o => exact ⟨v, h.lost hmsg⟩
      next call hcall =>
        obtain ⟨engine, hperform, rfl⟩ := Option.map_eq_some_iff.mp hstep
        obtain ⟨e', trades, v', hdone, hshows, heffect, -, hfills⟩ := perform_spec h.shows ord call
        obtain rfl := Option.some.inj (hdone.symm.trans hperform)
        cases msg with
        | cancel id =>
          obtain ⟨k, hk, rfl⟩ := Sent.call_cancel hcall
          exact ⟨v', h.cancel hmsg hk heffect hshows hfills⟩
        | newOrder o =>
          obtain ⟨-, n, rfl, -⟩ := Sent.call_newOrder hcall
          exact ⟨v', h.newOrder hmsg hcall heffect hshows hfills⟩
  | lose =>
    rw [DeskConfig.step] at hstep
    split at hstep
    · cases hstep
    next msg hmsg =>
      obtain rfl := Option.some.inj hstep
      exact ⟨v, h.lose hmsg (hkeeps msg hmsg)⟩
  | other ord call =>
    rw [DeskConfig.step] at hstep
    split_ifs at hstep with hown
    obtain ⟨engine, hperform, rfl⟩ := Option.map_eq_some_iff.mp hstep
    obtain ⟨e', trades, v', hdone, hshows, heffect, -, hfills⟩ := perform_spec h.shows ord call
    obtain rfl := Option.some.inj (hdone.symm.trans hperform)
    exact ⟨v', h.other hown hshows heffect hfills⟩

/-- At the start nothing was sent. -/
theorem inv_start (cfg : DeskConfig) (book : Option TcpClient.BookUpdateMsg) :
    ∃ v, (cfg.start book).Inv cfg v := by
  refine ⟨⟨[], fun _ _ => 0, fun _ => invalidPrice⟩, ?_⟩
  exact
    { shows := OrderBook.shows_init
      tidy := ⟨Or.inl rfl, fun _ => rfl, by simp [DeskConfig.start], by simp [DeskConfig.start],
        by simp [DeskConfig.start], by simp [Simulator.Accounted, DeskConfig.start]⟩
      next := ⟨le_rfl, cfg.ids⟩
      sent := by simp [DeskConfig.start, ordersOf]
      distinct := List.nodup_nil
      arrived := le_rfl
      stands := fun o ho => absurd ho List.not_mem_nil
      fine := trivial
      covered := fun a ha => absurd ha.1 List.not_mem_nil
      booked := fun f hf => absurd hf List.not_mem_nil }

end Desk

/-- A market maker with one quote on each side and the ids from 1 on. -/
def oneDesk : DeskConfig where
  mm :=
    { gamma := 1 / 50, kappa := 5 / 2, maxInventory := 100, numLevels := 1, levelSpacing := 2,
      baseQuantity := 50, sigmaWindow := 100, totalSteps := 5000, log := fun x => x - 1,
      gamma_pos := by norm_num, kappa_pos := by norm_num, totalSteps_pos := by norm_num }
  tickSize := 1 / 100
  connected := true
  fees := {}
  first := 1
  limit := 999999
  widening := by decide
  ids := by decide

-- when the cancel of a resting ask is lost and the market rises, the next bid trades with it
example :
    (Machine.run oneDesk.step (oneDesk.start (some ⟨9995, 10005, 0, 0, [], [], [], []⟩))
      [.turn (.marketMaker 1 []), .arrive HashOrder.recent, .arrive HashOrder.recent,
        .turn (.other [.bookUpdate ⟨10095, 10105, 0, 0, [], [], [], []⟩]),
        .turn (.marketMaker 2 []), .arrive HashOrder.recent, .lose, .arrive HashOrder.recent]).map
          (fun s => s.engine.fills.map fun f => (f.makerId, f.takerId, f.price, f.quantity)) =
      some [(2, 3, 10001, 50)] := by
  decide +kernel

end LiquidityArena

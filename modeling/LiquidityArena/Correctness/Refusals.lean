import LiquidityArena.View.Observe

/-!
# Refused calls and applied modifies

A call that is refused leaves the book as it is, down to the pool. An applied modify
leaves its order in the book under the new terms: the slot it gives back is free again
when the order re-enters, so this holds for a full pool as well. Its type is kept because
the only orders that rest with another type than LIMIT or ICEBERG are filled market
orders, and these cannot be modified.
-/

namespace LiquidityArena

open OrderBook

namespace OrderBook

/-- One of the checks turns the order down. -/
def Refuses (b : OrderBook) (n : NewOrder) : Prop :=
  n.quantity ≤ 0 ∨ ((n.type = .limit ∨ n.type = .iceberg) ∧ n.price ≤ 0) ∨
    (n.type = .iceberg ∧ n.displayQty ≤ 0) ∨ (b.getOrder n.id).isSome = true ∨
    b.pool.available = 0

/-- The book after a modify: the order has the new price and quantity on its old side and with its
old type, and all other orders are what and where they were. -/
structure ModifiedTo (b : OrderBook) (id : OrderId) (price qty : Int) (b' : OrderBook) : Prop where
  order : ∃ o o', b.orderOf id = some o ∧ b'.orderOf id = some o' ∧
    o' ∈ b'.queueOf o.side.isBid price ∧ o'.price = price ∧ o'.remaining = qty ∧
    o'.side = o.side ∧ o'.type = o.type
  others : ∀ id', id' ≠ id → b'.orderOf id' = b.orderOf id'
  places : ∀ s t, ((b'.queueOf s t).filter fun o => o.id != id) =
    (b.queueOf s t).filter fun o => o.id != id

end OrderBook

namespace BookView

variable {v v' w : BookView} {i o : Order} {trades : List (Order × Int)} {call : Call}

/-- An order with something left is a limit order or an iceberg. -/
def Restable (o : Order) : Prop := 0 < o.remaining → o.type = .limit ∨ o.type = .iceberg

private theorem Restable.reduced {o' : Order} (h : Restable o) (hred : o.Reduced o') :
    Restable o' := by
  intro hpos
  rw [hred.type]
  exact h (hpos.trans_le hred.remaining)

private theorem restable_reentry (o : Order) (price qty : Int) :
    Restable (reentry o price qty) := by
  intro _
  rw [reentry]
  split_ifs
  · exact Or.inr rfl
  · exact Or.inl rfl

private theorem restable_order {n : NewOrder} (hty : n.type ≠ .market) : Restable n.order := by
  intro _
  rw [NewOrder.order, if_neg hty]
  split_ifs
  · exact Or.inr rfl
  · exact Or.inl rfl

/-- A market order that stays has nothing left. -/
theorem Effect.restable_market {n : NewOrder} (h : v.Effect (.newOrder n) trades v') (hv : v.Sound)
    (hty : n.type = .market) (hall : v.All Restable) : v'.All Restable := by
  cases h with
  | refused _ => exact hall
  | rested _ hne _ => exact absurd hty hne
  | @matched _ _ w _ i hacc _ hmatched hsettled =>
    have hsound := hv.enter hacc
    have hmem : n.order ∈ (v.enter n.order).orders := by simp [enter, place]
    have henter : (v.enter n.order).All fun o => o.id ≠ n.order.id → Restable o := by
      intro o ho hne
      rcases List.mem_append.mp ho with ho | ho
      · exact hall o ho
      · exact absurd (congrArg Order.id (List.mem_singleton.mp ho)) hne
    have hw : w.Sound ∧ w.All fun o => o.id ≠ n.order.id → Restable o :=
      Changes.invariant (hmatched.changes hsound fun _ => False)
        (fun w => w.Sound ∧ w.All fun o => o.id ≠ n.order.id → Restable o)
        (fun hchange hw => ⟨hchange.sound hw.1, hchange.all_reduced hw.1 False.elim
          (fun hP hred hid => (hP (hred.id ▸ hid)).reduced hred) hw.2⟩) ⟨hsound, henter⟩
    obtain ⟨filled, hfilled⟩ := hmatched.taker
    have hid : i.id = n.order.id := by rw [hfilled]; rfl
    rw [Settled] at hsettled
    split at hsettled
    · intro o ho
      obtain ⟨ho, hne⟩ := hsettled.mem_iff.mp ho
      exact hw.2 o ho (hid ▸ hne)
    · rename_i hrest
      rw [hsettled]
      intro o ho hpos
      by_cases hoi : o.id = i.id
      · rw [hw.1.eq_of_id ho (hmatched.sound hsound hmem).2 hoi] at hpos
        exact absurd (iff_of_true hty hpos) hrest
      · exact hw.2 o ho (hid ▸ hoi) hpos

/-- Every call leaves orders that may rest. -/
theorem Effect.restable (h : v.Effect call trades v') (hv : v.Sound) (hall : v.All Restable) :
    v'.All Restable := by
  by_cases hmarket : ∃ n : NewOrder, call = .newOrder n ∧ n.type = .market
  · obtain ⟨n, rfl, hty⟩ := hmarket
    exact h.restable_market hv hty hall
  · have henters : v.Enters Restable call := by
      cases call with
      | newOrder n => exact fun _ => restable_order fun hty => hmarket ⟨n, rfl, hty⟩
      | cancel id => trivial
      | modify id price qty => exact fun o _ _ _ _ _ => restable_reentry o price qty
    have hboth := h.invariant hv Restable (fun w => w.Sound ∧ w.All Restable) henters
      (fun hchange hw => ⟨hchange.sound hw.1, hchange.all_reduced hw.1 id Restable.reduced hw.2⟩)
      ⟨hv, hall⟩
    exact hboth.2

/-- Apart from the modified order, a modify changes nothing. -/
theorem Modified.others {price qty : Int} (h : v.Modified o price qty v') :
    (v'.orders.filter fun x => x.id != o.id) = v.orders.filter fun x => x.id != o.id := by
  cases h with
  | inPlace _ => exact filter_ne_amend fun _ => rfl
  | moved _ hdrop =>
    rw [place, List.filter_append, hdrop.orders, List.filter_filter]
    simp

/-- The modified order has the new price and quantity. -/
theorem Modified.order {price qty : Int} (h : v.Modified o price qty v') (ho : o ∈ v.orders)
    (hrest : o.type = .limit ∨ o.type = .iceberg) :
    ∃ o' ∈ v'.orders, o'.id = o.id ∧ o'.price = price ∧ o'.remaining = qty ∧ o'.side = o.side ∧
      o'.type = o.type := by
  cases h with
  | inPlace hprice =>
    refine ⟨o.shrink qty, mem_amend.mpr ⟨o, ho, (if_pos rfl).symm⟩, rfl, hprice.symm,
      o.remaining_shrink qty, rfl, rfl⟩
  | moved _ hdrop =>
    refine ⟨reentry o price qty, by simp [place], id_reentry .., price_reentry ..,
      remaining_reentry .., side_reentry .., ?_⟩
    rw [reentry]
    split_ifs with hice
    · exact hice.symm
    · exact (hrest.resolve_right hice).symm

end BookView

namespace OrderBook

variable {b b' : OrderBook} {v v' : BookView}

private theorem Shows.refuses_iff (h : b.Shows v) {n : NewOrder} : b.Refuses n ↔ ¬ v.Accepts n := by
  rw [← h.admits_iff, Admits, NewOrder.Valid, MatchingEngine.ValidParams, Refuses,
    Option.isSome_iff_ne_none, Nat.pos_iff_ne_zero]
  tauto

/-- What an applied modify leaves in the book. -/
theorem Shows.modifiedTo (h : b.Shows v) (h' : b'.Shows v') {o : Order} {price qty : Int}
    (ho : o ∈ v.orders) (hrest : o.type = .limit ∨ o.type = .iceberg)
    (hmod : v.Modified o price qty v') : b.ModifiedTo o.id price qty b' := by
  obtain ⟨o', ho', hid, hprice, hqty, hside, htype⟩ := hmod.order ho hrest
  have hothers := hmod.others
  refine ⟨⟨o, o', h.orderOf_eq_some_iff.mpr ⟨ho, rfl⟩, h'.orderOf_eq_some_iff.mpr ⟨ho', hid⟩, ?_,
    hprice, hqty, hside, htype⟩, fun id hne => ?_, fun s t => ?_⟩
  · rw [h'.queueOf]
    exact BookView.mem_level.mpr ⟨ho', congrArg Side.isBid hside, hprice⟩
  · have hmem : ∀ x : Order, x.id = id → (x ∈ v'.orders ↔ x ∈ v.orders) := by
      intro x hx
      have hkeep : (x.id != o.id) = true := bne_iff_ne.mpr (hx ▸ hne)
      have hiff : x ∈ v'.orders.filter (fun x => x.id != o.id) ↔
          x ∈ v.orders.filter fun x => x.id != o.id := by rw [hothers]
      rwa [List.mem_filter, List.mem_filter, and_iff_left hkeep, and_iff_left hkeep] at hiff
    refine Option.ext fun x => ?_
    rw [h'.orderOf_eq_some_iff, h.orderOf_eq_some_iff]
    exact and_congr_left (hmem x)
  · rw [h.queueOf, h'.queueOf, BookView.level, BookView.level, List.filter_comm, hothers,
      List.filter_comm]

end OrderBook

namespace MatchingEngine

variable {e : MatchingEngine} {v : BookView}

/-- An order that is turned down is only counted. -/
theorem processNewOrder_refused (h : e.book.Shows v) (ord : HashOrder) {n : NewOrder}
    (hno : ¬ v.Accepts n) :
    e.processNewOrder ord n.id n.side n.type n.price n.quantity n.ts n.displayQty =
      some (none, { e with totalOrders := e.totalOrders + 1 }) := by
  obtain ⟨ps, hrep, rfl, -⟩ := h
  rw [processNewOrder]
  by_cases hvalid : ValidParams n.type n.price n.quantity n.displayQty
  · have hroom : ¬ ((∀ x ∈ (e.book.view ps).orders, x.id ≠ n.id) ∧ ps.length < maxOrders) :=
      fun hok => hno ⟨hvalid, hok.1, by simpa [view] using hok.2⟩
    rw [if_pos hvalid]
    by_cases hty : n.type = .market
    · rw [if_pos hty, processMarket, addOrder, hrep.placeOrder_refused _ hroom]
    · rw [if_neg hty, processResting, addOrder, addIcebergOrder, hrep.placeOrder_refused _ hroom,
        hrep.placeOrder_refused _ hroom, ite_self]
  · rw [if_neg hvalid]

/-- A cancel that fails leaves the book as it is. -/
theorem processCancel_refused (h : e.book.Shows v) {ord : HashOrder} {id : OrderId}
    (hfail : (e.processCancel ord id).1 = false) : (e.processCancel ord id).2.book = e.book := by
  obtain ⟨ps, hrep, rfl, -⟩ := h
  rcases hrep.cancelOrder_cases ord id with ⟨o, -, -, b', -, hcall, -⟩ | ⟨-, hcall⟩
  · rw [processCancel, hcall] at hfail
    cases hfail
  · rw [processCancel, hcall]

/-- What a modify does to the book. -/
theorem processModify_cases (h : e.book.Shows v) (hv : v.All BookView.Restable) (ord : HashOrder)
    (id : OrderId) (price qty : Int) :
    ((e.processModify ord id price qty).1 = false →
        (e.processModify ord id price qty).2.book = e.book) ∧
      ((e.processModify ord id price qty).1 = true ↔
        ∃ o, e.book.orderOf id = some o ∧ 0 < qty ∧ qty ≤ o.remaining) ∧
      ((e.processModify ord id price qty).1 = true →
        e.book.ModifiedTo id price qty (e.processModify ord id price qty).2.book) := by
  have hshows := h
  obtain ⟨ps, hrep, rfl, hsound⟩ := h
  rcases hrep.modifyOrder_cases ord id price qty with
    ⟨o, ho, rfl, hpos, hle, b', ps', hcall, hrep', hmod⟩ | ⟨hno, hcall⟩
  · rw [processModify, hcall]
    refine ⟨fun hfail => absurd hfail.symm Bool.false_ne_true, ?_, fun _ => ?_⟩
    · exact iff_of_true rfl ⟨o, hshows.orderOf_eq_some_iff.mpr ⟨ho, rfl⟩, hpos, hle⟩
    · exact hshows.modifiedTo ⟨ps', hrep', rfl, hmod.sound hsound hpos⟩ ho
        (hv o ho (hpos.trans_le hle)) hmod
  · rw [processModify, hcall]
    refine ⟨fun _ => rfl, iff_of_false Bool.false_ne_true ?_,
      fun happlied => absurd happlied Bool.false_ne_true⟩
    rintro ⟨o, ho, hok⟩
    obtain ⟨hmem, hid⟩ := hshows.orderOf_eq_some_iff.mp ho
    exact hno o hmem hid hok

end MatchingEngine

/-- After every run of calls with arbitrary arguments: a call that is refused leaves the book as it
is, a modify is applied exactly if its order is there and has at least the new, positive quantity
left, and then changes this order only. -/
theorem run_refusals_and_modifies (fees : FeeSchedule) (calls : List (HashOrder × Call)) :
    ∃ e, (MatchingEngine.init fees).run calls = some e ∧
      (∀ ord (n : NewOrder), e.book.Refuses n → ∃ e', e.processNewOrder ord n.id n.side n.type
        n.price n.quantity n.ts n.displayQty = some (none, e') ∧ e'.book = e.book) ∧
      (∀ ord id, (e.processCancel ord id).1 = false →
        (e.processCancel ord id).2.book = e.book) ∧
      ∀ ord id price qty,
        ((e.processModify ord id price qty).1 = false →
          (e.processModify ord id price qty).2.book = e.book) ∧
        ((e.processModify ord id price qty).1 = true ↔
          ∃ o, e.book.orderOf id = some o ∧ 0 < qty ∧ qty ≤ o.remaining) ∧
        ((e.processModify ord id price qty).1 = true →
          e.book.ModifiedTo id price qty (e.processModify ord id price qty).2.book) := by
  obtain ⟨e, v, hrun, hshows, hv⟩ := MatchingEngine.run_rule (·.All BookView.Restable)
    (fun _ _ => True) (fun h hv _ heffect _ => heffect.restable h.sound hv)
    (e := MatchingEngine.init fees) OrderBook.shows_init (by simp [BookView.All])
    (MatchingEngine.runMeets_of_forall (fun _ _ => trivial) _)
  refine ⟨e, hrun, fun ord n hno => ?_, fun ord id hfail => ?_, fun ord id price qty => ?_⟩
  · exact ⟨_, e.processNewOrder_refused hshows ord (hshows.refuses_iff.mp hno), rfl⟩
  · exact MatchingEngine.processCancel_refused hshows hfail
  · exact MatchingEngine.processModify_cases hshows hv ord id price qty

end LiquidityArena

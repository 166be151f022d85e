import LiquidityArena.View.Sweep

/-!
# Reading the orders off a book

What an observer of the C++ book can list: the orders queued at a level, the
orders of a side in whatever order the hash map stores its levels, and the order
found under an id. Requirements on the state before a call are stated with these
functions; for a book that shows a view they read the view.
-/

namespace LiquidityArena

namespace OrderBook

/-- The orders queued at a level, front first. -/
def queueOf (b : OrderBook) (isBid : Bool) (price : Int) : List Order :=
  match (b.levels isBid).lookup price with
  | none => []
  | some level => (level.queue b.pool).map fun p => (b.pool.get p).unlink

/-- The orders of a side, level by level. -/
def ordersOf (b : OrderBook) (isBid : Bool) : List Order :=
  (b.levels isBid).keys.flatMap (b.queueOf isBid)

/-- What remains in total of the orders of a side. -/
def volumeOf (b : OrderBook) (isBid : Bool) : Int :=
  ((b.ordersOf isBid).map Order.remaining).sum

/-- What remains of the orders of a side at a price or better. -/
def volumeTo (b : OrderBook) (isBid : Bool) (price : Int) : Int :=
  (((b.ordersOf isBid).filter fun o => ¬ Better isBid price o.price).map Order.remaining).sum

/-- What remains of the orders in front of an order in its queue. -/
def queuedAhead (b : OrderBook) (o : Order) : Int :=
  (((b.queueOf o.side.isBid o.price).takeWhile fun x => x.id ≠ o.id).map Order.remaining).sum

/-- What remains of the orders that an order has to wait for: those at better prices and
those in front of it in its queue. -/
def ahead (b : OrderBook) (o : Order) : Int :=
  (((b.ordersOf o.side.isBid).filter fun x => Better o.side.isBid x.price o.price).map
      Order.remaining).sum +
    (((b.queueOf o.side.isBid o.price).takeWhile fun x => x.id ≠ o.id).map Order.remaining).sum

/-- The depth and the count a level publishes, if there is a level. -/
def levelOf (b : OrderBook) (isBid : Bool) (price : Int) : Option (Int × Nat) :=
  ((b.levels isBid).lookup price).map fun level => (level.totalQuantity, level.orderCount)

/-- What remains in total of the orders queued at a level. -/
def restingAt (b : OrderBook) (isBid : Bool) (price : Int) : Int :=
  ((b.queueOf isBid price).map Order.remaining).sum

/-- The depth that a level has cached, nothing where there is no level. -/
def countedAt (b : OrderBook) (isBid : Bool) (price : Int) : Int :=
  (((b.levels isBid).lookup price).getD {}).totalQuantity

/-- The order found under an id. -/
def orderOf (b : OrderBook) (id : OrderId) : Option Order :=
  (b.getOrder id).map fun p => (b.pool.get p).unlink

/-- A published depth level is the counter of a level of the book. -/
theorem lookup_of_mem_getDepth {b : OrderBook} {ord : HashOrder} {s : Bool} {count : Nat}
    {d : DepthLevel} (h : d ∈ b.getDepth ord s count) :
    ∃ level, (b.levels s).lookup d.price = some level ∧ d.quantity = level.totalQuantity := by
  have hsorted := List.mem_mergeSort.mp (List.mem_of_mem_take h)
  obtain ⟨⟨price, level⟩, hentry, rfl⟩ := List.mem_map.mp hsorted
  have hmem := (ord.perm _).mem_iff.mp (List.mem_filter.mp hentry).1
  exact ⟨level, AList.mem_lookup_iff.mpr hmem, rfl⟩

/-- The book would take the order: it is valid, its id is free and so is a slot. -/
def Admits (b : OrderBook) (n : NewOrder) : Prop :=
  n.Valid ∧ b.getOrder n.id = none ∧ 0 < b.pool.available

instance (b : OrderBook) (n : NewOrder) : Decidable (b.Admits n) :=
  inferInstanceAs (Decidable (_ ∧ _))

namespace Stored

variable {b : OrderBook} {ps : List Ptr}

/-- The queue of a level is read off the view. -/
theorem queueOf (h : b.Stored ps) (s : Bool) (t : Int) : b.queueOf s t = (b.view ps).level s t := by
  have hslot := h.slots s t
  rw [level_view, OrderBook.queueOf]
  cases hl : (b.levels s).lookup t with
  | none =>
    rw [hl] at hslot
    rw [show queueAt _ _ _ _ = [] from hslot]
    rfl
  | some level =>
    rw [hl] at hslot
    rw [← hslot.1.queue_eq]

/-- An id finds the order of the view that carries it. -/
theorem orderOf_eq_some_iff (h : b.Stored ps) {id : OrderId} {o : Order} :
    b.orderOf id = some o ↔ o ∈ (b.view ps).orders ∧ o.id = id := by
  rw [orderOf, Option.map_eq_some_iff]
  constructor
  · rintro ⟨p, hp, rfl⟩
    obtain ⟨hmem, hid⟩ := (h.map id p).mp hp
    exact ⟨mem_orders.mpr ⟨p, hmem, rfl⟩, hid⟩
  · rintro ⟨ho, rfl⟩
    obtain ⟨p, -, hl, hget⟩ := h.lookup_of_mem ho
    exact ⟨p, hl, hget⟩

/-- The prices with a level are the prices with an order. -/
theorem mem_keys_iff (h : b.Stored ps) {s : Bool} {t : Int} :
    t ∈ (b.levels s).keys ↔ (b.view ps).level s t ≠ [] := by
  rw [← AList.mem_keys, ← AList.lookup_isSome, h.lookup_isSome_iff, ne_eq,
    List.eq_nil_iff_forall_not_mem]
  simp only [BookView.mem_level, BookView.mem_side, Order.At, not_forall, not_not, and_assoc]

end Stored

namespace Shows

variable {b : OrderBook} {v : BookView}

/-- A view that a book shows is sound. -/
theorem sound (h : b.Shows v) : v.Sound := by
  obtain ⟨ps, -, -, hv⟩ := h
  exact hv

/-- A book shows the best prices of its view. -/
theorem best (h : b.Shows v) : b.best = v.best := by
  obtain ⟨ps, -, rfl, -⟩ := h
  rfl

/-- The queue of a level is read off the view. -/
theorem queueOf (h : b.Shows v) (s : Bool) (t : Int) : b.queueOf s t = v.level s t := by
  obtain ⟨ps, hrep, rfl, -⟩ := h
  exact hrep.toStored.queueOf s t

/-- An id finds the order of the view that carries it. -/
theorem orderOf_eq_some_iff (h : b.Shows v) {id : OrderId} {o : Order} :
    b.orderOf id = some o ↔ o ∈ v.orders ∧ o.id = id := by
  obtain ⟨ps, hrep, rfl, -⟩ := h
  exact hrep.toStored.orderOf_eq_some_iff

/-- An id is absent from the book exactly when no order of the view carries it. -/
theorem orderOf_eq_none_iff (h : b.Shows v) {id : OrderId} :
    b.orderOf id = none ↔ ∀ o ∈ v.orders, o.id ≠ id := by
  rw [Option.eq_none_iff_forall_ne_some]
  simp only [ne_eq, h.orderOf_eq_some_iff, not_and]

/-- A lookup fails exactly when no order of the view carries the id. -/
theorem getOrder_eq_none_iff (h : b.Shows v) {id : OrderId} :
    b.getOrder id = none ↔ ∀ o ∈ v.orders, o.id ≠ id := by
  rw [← h.orderOf_eq_none_iff, OrderBook.orderOf, Option.map_eq_none_iff]

/-- The prices with a level are the prices with an order. -/
theorem mem_keys_iff (h : b.Shows v) {s : Bool} {t : Int} :
    t ∈ (b.levels s).keys ↔ v.level s t ≠ [] := by
  obtain ⟨ps, hrep, rfl, -⟩ := h
  exact hrep.toStored.mem_keys_iff

/-- A side has no level exactly when it has no order. -/
theorem entries_eq_nil_iff (h : b.Shows v) {s : Bool} :
    (b.levels s).entries = [] ↔ v.side s = [] := by
  have hkeys : (b.levels s).entries = [] ↔ (b.levels s).keys = [] := by
    rw [AList.keys, List.keys, List.map_eq_nil_iff]
  rw [hkeys, List.eq_nil_iff_forall_not_mem, List.eq_nil_iff_forall_not_mem]
  simp only [h.mem_keys_iff, not_not]
  constructor
  · intro hnil o ho
    have hmem := BookView.mem_level.mpr ⟨(BookView.mem_side.mp ho).1, (BookView.mem_side.mp ho).2, rfl⟩
    rw [hnil o.price] at hmem
    exact absurd hmem List.not_mem_nil
  · intro hnil t
    rw [List.eq_nil_iff_forall_not_mem]
    intro o ho
    obtain ⟨hmem, hat⟩ := BookView.mem_level.mp ho
    exact hnil o (BookView.mem_side.mpr ⟨hmem, hat.1⟩)

/-- The orders of a side are those of the view, in another order. -/
theorem ordersOf_perm (h : b.Shows v) (s : Bool) : (b.ordersOf s).Perm (v.side s) := by
  have hnodup : v.orders.Nodup := h.sound.distinct.of_map _
  have hside : (v.side s).Nodup := hnodup.filter _
  rw [List.perm_ext_iff_of_nodup ?_ hside]
  · intro o
    simp only [ordersOf, List.mem_flatMap, h.queueOf, BookView.mem_side, BookView.mem_level,
      Order.At]
    constructor
    · rintro ⟨t, -, ho, hs, -⟩
      exact ⟨ho, hs⟩
    · rintro ⟨ho, hs⟩
      refine ⟨o.price, h.mem_keys_iff.mpr ?_, ho, hs, rfl⟩
      exact List.ne_nil_of_mem (BookView.mem_level.mpr ⟨ho, hs, rfl⟩)
  · rw [ordersOf, List.nodup_flatMap]
    refine ⟨fun t _ => ?_, ?_⟩
    · rw [h.queueOf]
      exact hnodup.filter _
    · refine (AList.keys_nodup _).imp_of_mem ?_
      intro t t' _ _ hne o ho ho'
      rw [h.queueOf, BookView.mem_level] at ho ho'
      exact hne (ho.2.2.symm.trans ho'.2.2)

/-- The orders of a side of the book are the orders of that side of the view. -/
theorem mem_ordersOf (h : b.Shows v) {s : Bool} {o : Order} :
    o ∈ b.ordersOf s ↔ o ∈ v.orders ∧ o.side.isBid = s := by
  rw [(h.ordersOf_perm s).mem_iff, BookView.mem_side]

/-- The volume of a side is what remains of its orders. -/
theorem volumeOf (h : b.Shows v) (s : Bool) :
    b.volumeOf s = ((v.side s).map Order.remaining).sum :=
  ((h.ordersOf_perm s).map _).sum_eq

/-- The volume down to a price, read off the view. -/
theorem volumeTo (h : b.Shows v) (s : Bool) (t : Int) : b.volumeTo s t = v.volumeTo s t := by
  rw [OrderBook.volumeTo, (((h.ordersOf_perm s).filter _).map _).sum_eq, BookView.side,
    List.filter_filter, BookView.volumeTo, BookView.sumOver]
  simp only [Bool.and_comm, Bool.decide_and]

/-- In its queue an order has exactly those in front that the scan for it passes. -/
theorem queuedAhead (h : b.Shows v) {s : Bool} {t : Int} {front : List Order} {o : Order}
    (ho : v.Queued s t front o) : b.queuedAhead o = (front.map Order.remaining).sum := by
  obtain ⟨-, rfl, rfl⟩ := ho.mem
  obtain ⟨back, hback⟩ := ho
  have hnd : ((v.level o.side.isBid o.price).map (·.id)).Nodup :=
    h.sound.distinct.sublist (List.filter_sublist.map _)
  have hfront : ((front ++ o :: back).takeWhile fun x => x.id ≠ o.id) = front := by
    rw [List.takeWhile_append_of_pos, List.takeWhile_cons_of_neg (by simp), List.append_nil]
    intro x hx
    rw [hback, List.map_append, List.nodup_append] at hnd
    exact decide_eq_true (hnd.2.2 _ (List.mem_map_of_mem hx) _ (by simp))
  rw [OrderBook.queuedAhead, h.queueOf, hback, hfront]

/-- The quantity ahead of an order is what waits in front of it. -/
theorem ahead (h : b.Shows v) {s : Bool} {t : Int} {front : List Order} {o : Order}
    (ho : v.Queued s t front o) : b.ahead o = v.waiting s t front := by
  have hqueue := h.queuedAhead ho
  obtain ⟨-, rfl, rfl⟩ := ho.mem
  rw [OrderBook.queuedAhead] at hqueue
  rw [OrderBook.ahead, hqueue, (((h.ordersOf_perm _).filter _).map _).sum_eq, BookView.side,
    List.filter_filter, BookView.waiting, BookView.volumeBefore, BookView.sumOver]
  simp only [Bool.and_comm, Bool.decide_and]

/-- The depth and count of a level, read off the view. -/
theorem levelOf (h : b.Shows v) (s : Bool) (t : Int) :
    b.levelOf s t =
      if v.level s t = [] then none else some (v.total s t, (v.level s t).length) := by
  obtain ⟨ps, hrep, rfl, -⟩ := h
  have hslot := hrep.slots s t
  rw [OrderBook.levelOf]
  cases hl : (b.levels s).lookup t with
  | none =>
    rw [hl] at hslot
    rw [if_pos (level_view_eq_nil_iff.mpr hslot)]
    rfl
  | some level =>
    rw [hl] at hslot
    rw [if_neg fun hnil => hslot.2.1 (level_view_eq_nil_iff.mp hnil), level_view, List.length_map,
      ← hslot.1.count]
    simp [view, hl]

/-- The quantity resting at a price is the depth of what remains there. -/
theorem restingAt (h : b.Shows v) (s : Bool) (t : Int) :
    b.restingAt s t = v.depth Order.remaining s t := by
  rw [OrderBook.restingAt, h.queueOf]
  rfl

/-- What a level has cached, if there is a level. -/
theorem lookup_eq_some (h : b.Shows v) {s : Bool} {t : Int} {level : PriceLevel}
    (hl : (b.levels s).lookup t = some level) :
    v.level s t ≠ [] ∧ level.totalQuantity = v.total s t := by
  have hlevel := h.levelOf s t
  rw [OrderBook.levelOf, hl, Option.map_some] at hlevel
  split at hlevel
  · cases hlevel
  · rename_i hne
    exact ⟨hne, congrArg Prod.fst (Option.some.inj hlevel)⟩

/-- A resting iceberg displays something. -/
theorem display (h : b.Shows v) {o : Order} (ho : o ∈ v.orders) (hice : o.type = .iceberg) :
    0 < o.displayQty := by
  obtain ⟨ps, hrep, rfl, -⟩ := h
  exact hrep.display o ho hice

/-- Where there is no order there is no depth. -/
theorem total_of_nil (h : b.Shows v) {s : Bool} {t : Int} (hnil : v.level s t = []) :
    v.total s t = 0 := by
  obtain ⟨ps, hrep, rfl, -⟩ := h
  have hslot := hrep.slots s t
  simp only [view]
  cases hl : (b.levels s).lookup t with
  | none => rfl
  | some level =>
    rw [hl] at hslot
    exact absurd (level_view_eq_nil_iff.mp hnil) hslot.2.1

/-- The counter of a level is the total of the view. -/
theorem countedAt (h : b.Shows v) (s : Bool) (t : Int) : b.countedAt s t = v.total s t := by
  rw [OrderBook.countedAt]
  cases hl : (b.levels s).lookup t with
  | none =>
    refine (h.total_of_nil ?_).symm
    have hnone : t ∉ (b.levels s).keys := by
      rw [← AList.mem_keys, ← AList.lookup_eq_none, hl]
    by_contra hne
    exact hnone (h.mem_keys_iff.mpr hne)
  | some level => exact (h.lookup_eq_some hl).2

/-- The totals of the view fit 32 bits. -/
theorem wrapped (h : b.Shows v) (s : Bool) (t : Int) : toInt32 (v.total s t) = v.total s t := by
  obtain ⟨ps, hrep, rfl, -⟩ := h
  exact hrep.wrapped s t

/-- The pool has handed out one slot for each order. -/
theorem allocatedCount (h : b.Shows v) : b.pool.allocatedCount = v.orders.length := by
  obtain ⟨ps, hrep, rfl, -⟩ := h
  rw [hrep.live.count]
  simp [view]

/-- The checks before an entry, read off the view. -/
theorem admits_iff (h : b.Shows v) {n : NewOrder} : b.Admits n ↔ v.Accepts n := by
  have hroom : 0 < b.pool.available ↔ v.orders.length < maxOrders := by
    rw [ObjectPool.available, h.allocatedCount, Nat.sub_pos_iff_lt]
  rw [Admits, h.getOrder_eq_none_iff, hroom]
  exact ⟨fun ⟨hvalid, hf, hr⟩ => ⟨hvalid, hf, hr⟩,
    fun hacc => ⟨hacc.valid, hacc.fresh, hacc.room⟩⟩

/-- The id map counts the orders. -/
theorem totalOrders (h : b.Shows v) : b.totalOrders = v.orders.length := by
  obtain ⟨ps, hrep, rfl, -⟩ := h
  rw [hrep.totalOrders_eq]
  simp [view]

/-- A trade lowers what bounds the passes of the loop. -/
theorem measure_lt {b' : OrderBook} {v' : BookView} {p : Ptr} {m : Order} {q : Int} (h : b.Shows v)
    (h' : b'.Shows v') (htrade : v.Trade (b.pool.get p).unlink m q v')
    (hget : (b'.pool.get p).unlink = (b.pool.get p).unlink.fill q) :
    b'.totalOrders + (b'.pool.get p).unlink.remaining.toNat <
      b.totalOrders + (b.pool.get p).unlink.remaining.toNat := by
  rw [h.totalOrders, h'.totalOrders, hget]
  exact htrade.measure_lt h.sound

/-- The spread test reads the cached best prices. -/
theorem crosses_iff (h : b.Shows v) (side : Side) (price : Int) :
    MatchingEngine.Crosses b side price ↔ v.Crosses side price := by
  rw [MatchingEngine.Crosses, BookView.Crosses, ← h.best]
  cases side <;> simp [Side.Named, OrderBook.best, Better]

end Shows

end OrderBook

/-- The order of an accepted call is a bid or an ask. -/
def AdmitsNamed (b : OrderBook) : Call → Prop
  | .newOrder n => b.Admits n → n.side.Named
  | .cancel _ => True
  | .modify _ _ _ => True

/-- A call does nothing, or the order it is about names its side. -/
theorem BookView.Effect.unchanged_or_named {b : OrderBook} {v v' : BookView} {call : Call}
    {trades : List (Order × Int)} (h : v.Effect call trades v') (hshows : b.Shows v)
    (hcall : AdmitsNamed b call) : v' = v ∨ ∀ n, call = .newOrder n → n.side.Named := by
  by_cases hrefused : ∃ n, call = .newOrder n ∧ ¬ v.Accepts n
  · obtain ⟨n, rfl, hno⟩ := hrefused
    exact Or.inl (h.of_refused hno).2
  · refine Or.inr fun n hn => ?_
    subst hn
    refine hcall (hshows.admits_iff.mpr ?_)
    by_contra hno
    exact hrefused ⟨n, rfl, hno⟩

/-- What the call enters names its side, and has a price that the book can hold. -/
def EntersFit (b : OrderBook) : Call → Prop
  | .newOrder n => b.Admits n → n.side.Named ∧ (n.type ≠ .market → invalidPrice < n.price)
  | .cancel _ => True
  | .modify id price qty => ∀ o, b.orderOf id = some o → 0 < qty → qty ≤ o.remaining →
      invalidPrice < price

/-- What is entered under the requirement fits in the book. -/
theorem OrderBook.Shows.enters {b : OrderBook} {v : BookView} {call : Call} (h : b.Shows v)
    (hv : v.All (·.side.Named)) (hty : ∀ n, call = .newOrder n → n.type ≠ .market)
    (hfit : EntersFit b call) : v.Enters BookView.Fit call := by
  cases call with
  | newOrder n =>
    intro hacc
    obtain ⟨hside, hprice⟩ := hfit (h.admits_iff.mpr hacc)
    refine ⟨?_, ?_⟩
    · rw [n.side_order]
      exact hside
    · rw [n.price_order (hty n rfl)]
      exact hprice (hty n rfl)
  | cancel id => trivial
  | modify id price qty =>
    intro o ho hid hpos hle _
    refine ⟨?_, ?_⟩
    · rw [BookView.side_reentry]
      exact hv o ho
    · rw [BookView.price_reentry]
      exact hfit o (h.orderOf_eq_some_iff.mpr ⟨ho, hid⟩) hpos hle

/-- Calls other than market orders that enter what the book can hold keep a view regular. -/
theorem BookView.Effect.regular_of_fit {b : OrderBook} {v v' : BookView} {call : Call}
    {trades : List (Order × Int)} (h : v.Effect call trades v') (hshows : b.Shows v)
    (hv : v.Regular) (hty : ∀ n, call = .newOrder n → n.type ≠ .market)
    (hfit : EntersFit b call) : v'.Regular :=
  h.regular_of_enters hty (hshows.enters hv.sides hty hfit) hv

/-- Limit and iceberg orders, cancels and modifies with any arguments. -/
def Call.NoMarket : Call → Prop
  | .newOrder n => n.type = .limit ∨ n.type = .iceberg
  | .cancel _ => True
  | .modify _ _ _ => True

instance : DecidablePred Call.NoMarket
  | .newOrder n => inferInstanceAs (Decidable (n.type = .limit ∨ n.type = .iceberg))
  | .cancel _ => inferInstanceAs (Decidable True)
  | .modify _ _ _ => inferInstanceAs (Decidable True)

/-- The order of such a call is not a market order. -/
theorem Call.NoMarket.not_market {call : Call} (h : call.NoMarket) :
    ∀ n, call = .newOrder n → n.type ≠ .market := by
  rintro n rfl
  rcases h with hty | hty <;> simp [hty]

/-- Limit and iceberg orders with any arguments, cancels, and modifies to a positive price. -/
def Call.Rests : Call → Prop
  | .newOrder n => n.type = .limit ∨ n.type = .iceberg
  | .cancel _ => True
  | .modify _ price _ => 0 < price

instance : DecidablePred Call.Rests
  | .newOrder n => inferInstanceAs (Decidable (n.type = .limit ∨ n.type = .iceberg))
  | .cancel _ => inferInstanceAs (Decidable True)
  | .modify _ price _ => inferInstanceAs (Decidable (0 < price))

/-- Limit orders with any arguments, cancels, and modifies to a positive price. -/
def Call.Limits : Call → Prop
  | .newOrder n => n.type = .limit
  | .cancel _ => True
  | .modify _ price _ => 0 < price

instance : DecidablePred Call.Limits
  | .newOrder n => inferInstanceAs (Decidable (n.type = .limit))
  | .cancel _ => inferInstanceAs (Decidable True)
  | .modify _ price _ => inferInstanceAs (Decidable (0 < price))

/-- A call that submits only limit orders submits no market order. -/
theorem Call.Limits.rests {call : Call} (h : call.Limits) : call.Rests := by
  cases call with
  | newOrder n => exact Or.inl h
  | cancel id => trivial
  | modify id price qty => exact h

/-- A call that may rest submits no market order. -/
theorem Call.Rests.noMarket {call : Call} (h : call.Rests) : call.NoMarket := by
  cases call with
  | newOrder n => exact h
  | cancel id => trivial
  | modify id price qty => trivial

/-- Calls that may rest enter what the book can hold as long as accepted orders name their side. -/
theorem AdmitsNamed.entersFit {b : OrderBook} {call : Call} (hnamed : AdmitsNamed b call)
    (hrests : call.Rests) : EntersFit b call := by
  cases call with
  | newOrder n =>
    exact fun hadmits => ⟨hnamed hadmits, fun _ =>
      invalidPrice_lt_of_pos (hadmits.1.price_pos hrests)⟩
  | cancel id => trivial
  | modify id price qty => exact fun _ _ _ _ => invalidPrice_lt_of_pos hrests

/-- Calls that may rest enter what the view can hold as long as accepted orders name their side. -/
theorem OrderBook.Shows.enters_of_rests {b : OrderBook} {v : BookView} {call : Call} (h : b.Shows v)
    (hsides : v.All (·.side.Named)) (hrests : call.Rests) (hnamed : AdmitsNamed b call) :
    v.Enters BookView.Fit call :=
  h.enters hsides hrests.noMarket.not_market (hnamed.entersFit hrests)

/-- Calls that may rest keep a view regular as long as the accepted orders name their side. -/
theorem BookView.Effect.regular_of_admits {b : OrderBook} {v v' : BookView} {call : Call}
    {trades : List (Order × Int)} (h : v.Effect call trades v') (hshows : b.Shows v)
    (hv : v.Regular) (hrests : call.Rests) (hcall : AdmitsNamed b call) : v'.Regular :=
  h.regular_of_fit hshows hv hrests.noMarket.not_market (hcall.entersFit hrests)

end LiquidityArena

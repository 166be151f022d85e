import LiquidityArena.Engine.OrderBook

/-!
# What a book says, without pointers

A `BookView` lists the resting orders in arrival order, with the cached depth of
every level and the cached best prices. The primitive changes of a book are
described here once, as changes of its view: entering an order, executing a fill,
reducing an order in place and dropping an order. Dropping is a relation, because
the recomputed best price of a side that holds an order at the sentinel price
depends on the iteration order of the hash map.
-/

namespace LiquidityArena

open OrderBook (Better)

/-- The order belongs to the level of this side and price. -/
def Order.At (o : Order) (isBid : Bool) (price : Int) : Prop :=
  o.side.isBid = isBid ∧ o.price = price

instance (o : Order) (isBid : Bool) (price : Int) : Decidable (o.At isBid price) :=
  inferInstanceAs (Decidable (_ ∧ _))

@[simp] theorem Order.at_unlink (o : Order) (isBid : Bool) (price : Int) :
    o.unlink.At isBid price ↔ o.At isBid price := Iff.rfl

/-- Belonging to a level is belonging to that level only. -/
theorem Order.At.unique {o : Order} {s s' : Bool} {t t' : Int} (h : o.At s t) (h' : o.At s' t') :
    s = s' ∧ t = t' :=
  ⟨h.1.symm.trans h'.1, h.2.symm.trans h'.2⟩

/-- The order after its quantity is reduced so that `n` remains. -/
def Order.shrink (o : Order) (n : Int) : Order :=
  { o with quantity := o.filledQuantity + n }

@[simp] theorem Order.id_fill (o : Order) (q : Int) : (o.fill q).id = o.id := rfl

@[simp] theorem Order.side_fill (o : Order) (q : Int) : (o.fill q).side = o.side := rfl

@[simp] theorem Order.price_fill (o : Order) (q : Int) : (o.fill q).price = o.price := rfl

@[simp] theorem Order.type_fill (o : Order) (q : Int) : (o.fill q).type = o.type := rfl

@[simp] theorem Order.displayQty_fill (o : Order) (q : Int) :
    (o.fill q).displayQty = o.displayQty := rfl

@[simp] theorem Order.hiddenQty_fill (o : Order) (q : Int) :
    (o.fill q).hiddenQty = o.hiddenQty := rfl

@[simp] theorem Order.at_fill (o : Order) (q : Int) (s : Bool) (t : Int) :
    (o.fill q).At s t ↔ o.At s t := Iff.rfl

@[simp] theorem Order.remaining_fill (o : Order) (q : Int) :
    (o.fill q).remaining = o.remaining - q := by
  simp only [remaining, fill]
  omega

@[simp] theorem Order.id_shrink (o : Order) (n : Int) : (o.shrink n).id = o.id := rfl

@[simp] theorem Order.side_shrink (o : Order) (n : Int) : (o.shrink n).side = o.side := rfl

@[simp] theorem Order.price_shrink (o : Order) (n : Int) : (o.shrink n).price = o.price := rfl

@[simp] theorem Order.type_shrink (o : Order) (n : Int) : (o.shrink n).type = o.type := rfl

@[simp] theorem Order.displayQty_shrink (o : Order) (n : Int) :
    (o.shrink n).displayQty = o.displayQty := rfl

@[simp] theorem Order.hiddenQty_shrink (o : Order) (n : Int) :
    (o.shrink n).hiddenQty = o.hiddenQty := rfl

@[simp] theorem Order.at_shrink (o : Order) (n : Int) (s : Bool) (t : Int) :
    (o.shrink n).At s t ↔ o.At s t := Iff.rfl

@[simp] theorem Order.remaining_shrink (o : Order) (n : Int) : (o.shrink n).remaining = n := by
  simp only [remaining, shrink]
  omega

/-- The second order is the first one with other quantities, and no new iceberg. -/
structure Order.SameSpot (o o' : Order) : Prop where
  id : o'.id = o.id
  side : o'.side = o.side
  price : o'.price = o.price
  iceberg : o'.type = .iceberg → o.type = .iceberg ∧ o'.displayQty = o.displayQty
  prev : o'.prev = o.prev
  next : o'.next = o.next

/-- The second order is the first one with at most as much to execute. -/
structure Order.Reduced (o o' : Order) : Prop where
  id : o'.id = o.id
  side : o'.side = o.side
  price : o'.price = o.price
  type : o'.type = o.type
  displayQty : o'.displayQty = o.displayQty
  hiddenQty : o'.hiddenQty = o.hiddenQty
  remaining : o'.remaining ≤ o.remaining

/-- A fill reduces an order. -/
theorem Order.reduced_fill (o : Order) {q : Int} (hq : 0 ≤ q) : o.Reduced (o.fill q) :=
  ⟨rfl, rfl, rfl, rfl, rfl, rfl, by rw [remaining_fill]; omega⟩

/-- Shrinking an order below what remains reduces it. -/
theorem Order.reduced_shrink (o : Order) {n : Int} (hn : n ≤ o.remaining) : o.Reduced (o.shrink n) :=
  ⟨rfl, rfl, rfl, rfl, rfl, rfl, by rwa [remaining_shrink]⟩

/-- The enumerator that selects a side of the book. -/
def Side.ofBid (isBid : Bool) : Side := if isBid then .bid else .ask

@[simp] theorem Side.isBid_ofBid (isBid : Bool) : (Side.ofBid isBid).isBid = isBid := by
  cases isBid <;> rfl

/-- The book takes a side byte that names no side for an ask. -/
theorem Side.isBid_of_not_named {side : Side} (h : ¬ side.Named) : side.isBid = false := by
  rw [Bool.eq_false_iff, ne_eq, Side.isBid_iff]
  exact fun hbid => h (Or.inl hbid)

/-- A named side is the side of its own direction. -/
theorem Side.Named.eq_ofBid {side : Side} (h : side.Named) : side = Side.ofBid side.isBid := by
  rcases h with rfl | rfl <;> rfl

/-- No price is better than itself. -/
theorem OrderBook.better_irrefl (s : Bool) (p : Int) : ¬ Better s p p := by
  cases s <;> simp [Better]

/-- Being better is transitive. -/
theorem OrderBook.Better.trans {s : Bool} {p q r : Int} (h : Better s p q) (h' : Better s q r) :
    Better s p r := by
  cases s <;> simp only [Better] at * <;> omega

/-- Two prices are comparable, and equal when neither is better. -/
theorem OrderBook.eq_of_not_better {s : Bool} {p q : Int} (h : ¬ Better s p q)
    (h' : ¬ Better s q p) : p = q := by
  cases s <;> simp only [Better] at * <;> omega

/-- Not being better is transitive. -/
theorem OrderBook.not_better_trans {s : Bool} {p q r : Int} (h : ¬ Better s p q)
    (h' : ¬ Better s q r) : ¬ Better s p r := by
  cases s <;> simp only [Better] at * <;> omega

/-- What is better on one side is worse on the other. -/
theorem OrderBook.better_not (s : Bool) (p q : Int) : Better (!s) p q ↔ Better s q p := by
  cases s <;> rfl

/-- The resting orders in arrival order, the cached depth and the cached best prices. -/
@[ext] structure BookView where
  orders : List Order
  total : Bool → Int → Int
  best : Bool → Int

namespace BookView

/-- The queue of a level, oldest first. -/
def level (v : BookView) (isBid : Bool) (price : Int) : List Order :=
  v.orders.filter fun o => o.At isBid price

/-- The resting orders of one side. -/
def side (v : BookView) (isBid : Bool) : List Order :=
  v.orders.filter fun o => o.side.isBid = isBid

/-- The orders of a level are the orders at its side and price. -/
theorem mem_level {v : BookView} {s : Bool} {t : Int} {o : Order} :
    o ∈ v.level s t ↔ o ∈ v.orders ∧ o.At s t := by
  simp [level]

/-- The orders of a side are the orders in its direction. -/
theorem mem_side {v : BookView} {s : Bool} {o : Order} :
    o ∈ v.side s ↔ o ∈ v.orders ∧ o.side.isBid = s := by
  simp [side]

/-- Enter an order that counts `shown` into the depth of its level. -/
def place (v : BookView) (o : Order) (shown : Int) : BookView where
  orders := v.orders ++ [o]
  total s t := if o.At s t then toInt32 (v.total s t + shown) else v.total s t
  best s :=
    if s = o.side.isBid ∧ (v.best s = invalidPrice ∨ Better s o.price (v.best s)) then o.price
    else v.best s

/-- Change one order, named by its id. -/
def amend (orders : List Order) (id : OrderId) (f : Order → Order) : List Order :=
  orders.map fun o => if o.id = id then f o else o

/-- Execute `q` between a maker and a taker and take it off both levels' depth. -/
def fill (v : BookView) (m t : Order) (q : Int) : BookView where
  orders := amend (amend v.orders m.id (·.fill q)) t.id (·.fill q)
  total s p :=
    let made := if m.At s p then toInt32 (v.total s p - q) else v.total s p
    if t.At s p then toInt32 (made - q) else made
  best := v.best

/-- Reduce an order in place until `n` remains of it. -/
def shrink (v : BookView) (o : Order) (n : Int) : BookView where
  orders := amend v.orders o.id (·.shrink n)
  total s p := if o.At s p then toInt32 (v.total s p - (o.remaining - n)) else v.total s p
  best := v.best

/-- A possible result of rescanning the prices of a side: with the sentinel among
them it is only some price of the side, otherwise it is the best one. -/
structure Scanned (v : BookView) (isBid : Bool) (price : Int) : Prop where
  mem : price = invalidPrice ∨ ∃ o ∈ v.side isBid, o.price = price
  exact : (∀ o ∈ v.side isBid, o.price ≠ invalidPrice) →
    (price = invalidPrice → v.side isBid = []) ∧ ∀ o ∈ v.side isBid, ¬ Better isBid o.price price

/-- The order leaves the book. The cached best price of a side is recomputed when
the order was the last one at that price and its side byte names that side. -/
structure Dropped (v : BookView) (o : Order) (v' : BookView) : Prop where
  orders : v'.orders = v.orders.filter fun x => x.id != o.id
  total : ∀ s t, v'.total s t =
    if o.At s t then if v'.level s t = [] then 0 else toInt32 (v.total s t - o.remaining)
    else v.total s t
  best : ∀ s, if o.side = Side.ofBid s ∧ o.price = v.best s ∧ v'.level s o.price = [] then
    v'.Scanned s (v'.best s) else v'.best s = v.best s

/-- The order under the terms of a price-changing modify. -/
def reentry (o : Order) (price qty : Int) : Order :=
  if o.type = .iceberg then OrderBook.icebergOrder o.id o.side price qty o.displayQty o.timestamp
  else OrderBook.limitOrder o.id o.side price qty o.timestamp

/-- The depth a fresh order adds to its level. -/
def entryDepth (o : Order) : Int := if o.type = .iceberg then o.displayQty else o.quantity

/-- An applied modify: in place at the same price, else out and in again at the back. -/
inductive Modified (v : BookView) (o : Order) (price qty : Int) : BookView → Prop
  | inPlace : price = o.price → Modified v o price qty (v.shrink o qty)
  | moved {w : BookView} : price ≠ o.price → v.Dropped o w →
      Modified v o price qty (w.place (reentry o price qty) (entryDepth (reentry o price qty)))

/-- Amending an absent id changes nothing. -/
theorem amend_eq_self {orders : List Order} {id : OrderId} {f : Order → Order}
    (h : ∀ o ∈ orders, o.id ≠ id) : amend orders id f = orders := by
  unfold amend
  conv_rhs => rw [← List.map_id orders]
  exact List.map_congr_left fun o ho => by simp [h o ho]

/-- An order of the amended list is the amended or unamended form of one before. -/
theorem mem_amend {orders : List Order} {id : OrderId} {f : Order → Order} {o : Order} :
    o ∈ amend orders id f ↔ ∃ x ∈ orders, o = if x.id = id then f x else x := by
  simp only [amend, List.mem_map, eq_comm]

@[simp] theorem length_amend {orders : List Order} {id : OrderId} {f : Order → Order} :
    (amend orders id f).length = orders.length := by
  simp [amend]

/-- An amendment that keeps ids keeps the list of ids. -/
theorem map_id_amend {orders : List Order} {id : OrderId} {f : Order → Order}
    (hf : ∀ o, (f o).id = o.id) : (amend orders id f).map (·.id) = orders.map (·.id) := by
  simp only [amend, List.map_map]
  apply List.map_congr_left
  intro o _
  simp only [Function.comp_apply]
  split <;> simp [hf]

/-- An amendment that keeps sides and prices keeps every order in its queue. -/
theorem filter_amend {orders : List Order} {id : OrderId} {f : Order → Order} {P : Order → Bool}
    (hf : ∀ o, P (f o) = P o) : (amend orders id f).filter P = amend (orders.filter P) id f := by
  simp only [amend, List.filter_map]
  congr 1
  apply List.filter_congr
  intro o _
  simp only [Function.comp_apply]
  split <;> simp [hf]

/-- An amended order is deleted like the order it was. -/
theorem filter_ne_amend {orders : List Order} {id : OrderId} {f : Order → Order}
    (hf : ∀ o, (f o).id = o.id) :
    ((amend orders id f).filter fun o => o.id != id) = orders.filter fun o => o.id != id := by
  rw [filter_amend fun o => by simp only [hf], amend_eq_self]
  intro o ho
  simpa using (List.mem_filter.mp ho).2

/-- Ids are unique and no order is filled beyond its quantity. -/
structure Sound (v : BookView) : Prop where
  distinct : (v.orders.map (·.id)).Nodup
  nonneg : ∀ o ∈ v.orders, 0 ≤ o.remaining

/-- In a sound view an id names one order. -/
theorem Sound.eq_of_id {v : BookView} (h : v.Sound) {o o' : Order} (ho : o ∈ v.orders)
    (ho' : o' ∈ v.orders) (hid : o.id = o'.id) : o = o' :=
  List.inj_on_of_nodup_map h.distinct ho ho' hid

/-- A fill between two different ids, in one pass over the orders. -/
theorem orders_fill {v : BookView} {m t : Order} (hne : m.id ≠ t.id) (q : Int) :
    (v.fill m t q).orders =
      v.orders.map fun x => if x.id = m.id ∨ x.id = t.id then x.fill q else x := by
  simp only [fill, amend, List.map_map]
  apply List.map_congr_left
  intro x _
  simp only [Function.comp_apply]
  by_cases hm : x.id = m.id
  · simp [hm, hne]
  · simp only [hm, if_false, false_or]

@[simp] theorem length_orders_fill {v : BookView} {m t : Order} {q : Int} :
    (v.fill m t q).orders.length = v.orders.length := by
  simp [fill]

private theorem map_id_fill {v : BookView} {m t : Order} {q : Int} :
    (v.fill m t q).orders.map (·.id) = v.orders.map (·.id) := by
  have h : ∀ o : Order, (o.fill q).id = o.id := fun _ => rfl
  exact (map_id_amend h).trans (map_id_amend h)

/-- A fill within both remainders keeps a view sound. -/
theorem Sound.fill {v : BookView} (h : v.Sound) {m t : Order} {q : Int} (hm : m ∈ v.orders)
    (ht : t ∈ v.orders) (hne : m.id ≠ t.id) (hqm : q ≤ m.remaining) (hqt : q ≤ t.remaining) :
    (v.fill m t q).Sound where
  distinct := by
    rw [map_id_fill]
    exact h.distinct
  nonneg o ho := by
    rw [orders_fill hne, List.mem_map] at ho
    obtain ⟨x, hx, rfl⟩ := ho
    split
    · rename_i hid
      rw [Order.remaining_fill]
      rcases hid with hid | hid
      · rw [h.eq_of_id hx hm hid]
        omega
      · rw [h.eq_of_id hx ht hid]
        omega
    · exact h.nonneg x hx

/-- A fresh order keeps a view sound. -/
theorem Sound.place {v : BookView} (h : v.Sound) {o : Order} (hfresh : ∀ x ∈ v.orders, x.id ≠ o.id)
    (hrem : 0 ≤ o.remaining) (shown : Int) : (v.place o shown).Sound where
  distinct := by
    simp only [BookView.place, List.map_append, List.map_cons, List.map_nil]
    rw [List.nodup_append]
    refine ⟨h.distinct, by simp, ?_⟩
    intro a ha b hb
    obtain ⟨x, hx, rfl⟩ := List.mem_map.mp ha
    rw [List.mem_singleton.mp hb]
    exact hfresh x hx
  nonneg x hx := by
    rcases List.mem_append.mp hx with hx | hx
    · exact h.nonneg x hx
    · rw [List.mem_singleton.mp hx]
      exact hrem

/-- A reduction to a quantity that is not negative keeps a view sound. -/
theorem Sound.shrink {v : BookView} (h : v.Sound) (o : Order) {n : Int} (hn : 0 ≤ n) :
    (v.shrink o n).Sound where
  distinct := by
    have hid : ∀ x : Order, (x.shrink n).id = x.id := fun _ => rfl
    exact (map_id_amend hid).symm ▸ h.distinct
  nonneg x hx := by
    obtain ⟨y, hy, rfl⟩ := mem_amend.mp hx
    split
    · rw [Order.remaining_shrink]
      exact hn
    · exact h.nonneg y hy

/-- Dropping an order leaves exactly the orders with another id. -/
theorem Dropped.mem_iff {v v' : BookView} {o : Order} (h : v.Dropped o v') {x : Order} :
    x ∈ v'.orders ↔ x ∈ v.orders ∧ x.id ≠ o.id := by
  rw [h.orders]
  simp

/-- Dropping an order keeps a view sound. -/
theorem Dropped.sound {v v' : BookView} {o : Order} (h : v.Dropped o v') (hv : v.Sound) :
    v'.Sound where
  distinct := by
    rw [h.orders]
    exact hv.distinct.sublist (List.filter_sublist.map _)
  nonneg x hx := hv.nonneg x (h.mem_iff.mp hx).1

/-- Dropping an order that is there makes the view shorter. -/
theorem Dropped.length_lt {v v' : BookView} {o x : Order} (h : v.Dropped o v')
    (hx : x ∈ v.orders) (hid : x.id = o.id) : v'.orders.length < v.orders.length := by
  rw [h.orders]
  exact List.length_filter_lt_length_iff_exists.mpr ⟨x, hx, by simp [hid]⟩

/-- Orders that only change their quantities display what they did. -/
theorem Modified.displayed {v v' : BookView} {o : Order} {price qty : Int}
    (h : v.Modified o price qty v') (ho : o ∈ v.orders)
    (hall : ∀ x ∈ v.orders, x.type = .iceberg → 0 < x.displayQty) :
    ∀ x ∈ v'.orders, x.type = .iceberg → 0 < x.displayQty := by
  intro x hx hice
  cases h with
  | inPlace _ =>
    obtain ⟨y, hy, rfl⟩ := mem_amend.mp hx
    have hsame : (if y.id = o.id then y.shrink qty else y).type = y.type ∧
        (if y.id = o.id then y.shrink qty else y).displayQty = y.displayQty := by
      split <;> exact ⟨rfl, rfl⟩
    rw [hsame.2]
    exact hall y hy (hsame.1 ▸ hice)
  | moved _ hdrop =>
    rcases List.mem_append.mp hx with hx | hx
    · exact hall x (hdrop.mem_iff.mp hx).1 hice
    · rw [List.mem_singleton.mp hx] at hice ⊢
      rw [reentry] at hice ⊢
      split_ifs at hice ⊢ with hice'
      · exact hall o ho hice'
      · cases hice

end BookView

end LiquidityArena

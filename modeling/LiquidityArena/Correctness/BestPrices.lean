import LiquidityArena.View.Observe
import LiquidityArena.Lib.Machine

/-!
# The cached best prices of the book

The operations of the book itself are run here, with arguments the engine would refuse.
The best price of a side is exact as long as it is the price of some order: no order ever
beats it. A removal recomputes it only if the side byte of the order names a side, so it
goes stale when the last order at the best ask has another side byte.
-/

namespace LiquidityArena

open OrderBook

/-- An operation of the book; `releaseOrder` unlinks and releases the order found under an id. -/
inductive BookOp where
  | addOrder (id : OrderId) (side : Side) (price quantity : Int) (ts : Timestamp)
  | addIcebergOrder (id : OrderId) (side : Side) (price totalQty displayQty : Int) (ts : Timestamp)
  | cancelOrder (id : OrderId)
  | modifyOrder (id : OrderId) (newPrice newQty : Int)
  | releaseOrder (id : OrderId)
  deriving DecidableEq, Repr

/-- The price an operation names is not the sentinel. -/
def BookOp.Priced : BookOp → Prop
  | .addOrder _ _ price _ _ => price ≠ invalidPrice
  | .addIcebergOrder _ _ price _ _ _ => price ≠ invalidPrice
  | .modifyOrder _ newPrice _ => newPrice ≠ invalidPrice
  | _ => True

instance : DecidablePred BookOp.Priced
  | .addOrder _ _ price _ _ => inferInstanceAs (Decidable (price ≠ invalidPrice))
  | .addIcebergOrder _ _ price _ _ _ => inferInstanceAs (Decidable (price ≠ invalidPrice))
  | .modifyOrder _ newPrice _ => inferInstanceAs (Decidable (newPrice ≠ invalidPrice))
  | .cancelOrder _ => inferInstanceAs (Decidable True)
  | .releaseOrder _ => inferInstanceAs (Decidable True)

/-- A book and a record of the ids of its orders, the one that has been at its price for the
longest time first. -/
structure TrackedBook where
  book : OrderBook := .init
  arrivals : List OrderId := []

namespace TrackedBook

/-- Enter the id of an order that was added. -/
def added (t : TrackedBook) (id : OrderId) (result : Option Ptr × OrderBook) : TrackedBook :=
  ⟨result.2, if result.1.isSome then t.arrivals ++ [id] else t.arrivals⟩

/-- One operation; an order that moves to another price arrives there. -/
def perform (t : TrackedBook) (op : HashOrder × BookOp) : Option TrackedBook :=
  match op.2 with
  | .addOrder id side price quantity ts =>
    some (t.added id (t.book.addOrder id side price quantity ts))
  | .addIcebergOrder id side price totalQty displayQty ts =>
    some (t.added id (t.book.addIcebergOrder id side price totalQty displayQty ts))
  | .cancelOrder id =>
    let (ok, b) := t.book.cancelOrder op.1 id
    some ⟨b, if ok then t.arrivals.erase id else t.arrivals⟩
  | .modifyOrder id newPrice newQty =>
    let (ok, b) := t.book.modifyOrder op.1 id newPrice newQty
    let moved := ok && (t.book.orderOf id).any fun o => o.price != newPrice
    some ⟨b, if moved then t.arrivals.erase id ++ [id] else t.arrivals⟩
  | .releaseOrder id =>
    match t.book.getOrder id with
    | none => some t
    | some p => some ⟨(t.book.removeOrderFromLevel op.1 p).releaseOrder p, t.arrivals.erase id⟩

/-- The best price of a side is the best key of its map, or the sentinel exactly if the side has
no order; the best order is the oldest one at that price. -/
structure ExactOn (t : TrackedBook) (s : Bool) : Prop where
  sentinel : t.book.best s = invalidPrice ↔
    ∀ id o, t.book.orderOf id = some o → o.side.isBid ≠ s
  key : t.book.best s ≠ invalidPrice → t.book.best s ∈ (t.book.levels s).keys
  top : ∀ price ∈ (t.book.levels s).keys, ¬ Better s price (t.book.best s)
  oldest : (t.book.bestOrder s).map (fun p => (t.book.pool.get p).id) =
    (t.arrivals.filter fun id => (t.book.orderOf id).any fun o => o.At s (t.book.best s)).head?

/-- Both cached best prices are exact. -/
def Exact (t : TrackedBook) : Prop := ∀ s, t.ExactOn s

end TrackedBook

/-- The order has a side byte that names no side and is alone at the best ask. -/
def OrderBook.LeavesStale (b : OrderBook) (o : Order) : Prop :=
  ¬ o.side.Named ∧ o.price = b.best false ∧ b.queueOf false o.price = [o]

instance (b : OrderBook) (o : Order) : Decidable (b.LeavesStale o) :=
  inferInstanceAs (Decidable (_ ∧ _ ∧ _))

/-- The order that an operation removes does not leave a stale best ask behind; one that a modify
enters again may hide it by a better price. -/
def KeepsBest (t : TrackedBook) (op : HashOrder × BookOp) : Prop :=
  match op.2 with
  | .cancelOrder id => ∀ o ∈ t.book.orderOf id, ¬ t.book.LeavesStale o
  | .releaseOrder id => ∀ o ∈ t.book.orderOf id, ¬ t.book.LeavesStale o
  | .modifyOrder id newPrice newQty => ∀ o ∈ t.book.orderOf id, 0 < newQty →
      newQty ≤ o.remaining → newPrice ≠ o.price → t.book.LeavesStale o → newPrice < o.price
  | _ => True

instance (t : TrackedBook) (op : HashOrder × BookOp) : Decidable (KeepsBest t op) :=
  match op with
  | (_, .addOrder ..) => isTrue trivial
  | (_, .addIcebergOrder ..) => isTrue trivial
  | (_, .cancelOrder id) =>
    inferInstanceAs (Decidable (∀ o ∈ t.book.orderOf id, ¬ t.book.LeavesStale o))
  | (_, .releaseOrder id) =>
    inferInstanceAs (Decidable (∀ o ∈ t.book.orderOf id, ¬ t.book.LeavesStale o))
  | (_, .modifyOrder id newPrice newQty) =>
    inferInstanceAs (Decidable (∀ o ∈ t.book.orderOf id, 0 < newQty → newQty ≤ o.remaining →
      newPrice ≠ o.price → t.book.LeavesStale o → newPrice < o.price))

namespace BookView

variable {v v' w : BookView} {o : Order} {s : Bool}

/-- Ids tell the orders apart. -/
def Distinct (v : BookView) : Prop := (v.orders.map (·.id)).Nodup

private theorem Distinct.eq_of_id (h : v.Distinct) {x : Order} (hx : x ∈ v.orders)
    (ho : o ∈ v.orders)
    (hid : x.id = o.id) : x = o :=
  List.inj_on_of_nodup_map h hx ho hid

/-- The level of a dropped order is empty if it was alone there. -/
theorem Dropped.level_eq_nil_iff (h : v.Dropped o v') (hv : v.Distinct) (ho : o ∈ v.orders) :
    v'.level o.side.isBid o.price = [] ↔ v.level o.side.isBid o.price = [o] := by
  have hlevel : v'.level o.side.isBid o.price =
      (v.level o.side.isBid o.price).filter fun x => x.id != o.id := by
    rw [level, h.orders, level, List.filter_filter, List.filter_filter]
    simp only [Bool.and_comm]
  have hmem : o ∈ v.level o.side.isBid o.price := mem_level.mpr ⟨ho, rfl, rfl⟩
  have hnodup : (v.level o.side.isBid o.price).Nodup := (List.Nodup.of_map _ hv).filter _
  constructor
  · intro hnil
    have hall : ∀ x ∈ v.level o.side.isBid o.price, x = o := by
      intro x hx
      by_contra hne
      have hx' : x ∈ v'.level o.side.isBid o.price := by
        rw [hlevel, List.mem_filter, bne_iff_ne]
        exact ⟨hx, fun hid => hne (hv.eq_of_id (mem_level.mp hx).1 ho hid)⟩
      rw [hnil] at hx'
      exact absurd hx' List.not_mem_nil
    refine List.perm_singleton.mp ((List.perm_ext_iff_of_nodup hnodup (List.nodup_singleton o)).mpr ?_)
    intro x
    rw [List.mem_singleton]
    exact ⟨hall x, fun hx => hx ▸ hmem⟩
  · intro hone
    rw [hlevel, hone]
    simp

/-- No order is at the sentinel price and none beats a cached best price. -/
structure Priced (v : BookView) : Prop where
  distinct : v.Distinct
  prices : v.All (·.price ≠ invalidPrice)
  topped : ∀ s, v.Topped s

private theorem priced_empty : Priced ⟨[], fun _ _ => 0, fun _ => invalidPrice⟩ :=
  ⟨List.nodup_nil, by simp [All], fun _ t hocc => by simp [Occupied] at hocc⟩

private theorem Priced.not_occupied (h : v.Priced) : ¬ v.Occupied s invalidPrice := by
  rintro ⟨x, hx, hat⟩
  exact h.prices x hx hat.2

private theorem Priced.place (h : v.Priced) (hfresh : ∀ x ∈ v.orders, x.id ≠ o.id)
    (hprice : o.price ≠ invalidPrice) (shown : Int) : (v.place o shown).Priced where
  distinct := by
    rw [Distinct, BookView.place, List.map_append, List.nodup_append]
    refine ⟨h.distinct, List.nodup_singleton _, ?_⟩
    simpa using hfresh
  prices := by
    intro x hx
    rcases List.mem_append.mp hx with hx | hx
    · exact h.prices x hx
    · rwa [List.mem_singleton.mp hx]
  topped s := (h.topped s).place (fun _ => hprice) shown

private theorem Priced.dropped (h : v.Priced) (hdrop : v.Dropped o v') : v'.Priced where
  distinct := by
    rw [Distinct, hdrop.orders]
    exact h.distinct.sublist (List.filter_sublist.map _)
  prices x hx := h.prices x (hdrop.mem_iff.mp hx).1
  topped s := hdrop.topped (h.topped s) fun hocc => h.not_occupied (hdrop.occupied hocc)

private theorem Priced.shrink (h : v.Priced) (o : Order) (n : Int) : (v.shrink o n).Priced where
  distinct := by
    have hid : ∀ x : Order, (x.shrink n).id = x.id := fun _ => rfl
    have hids : (v.shrink o n).orders.map (·.id) = v.orders.map (·.id) := map_id_amend hid
    rw [Distinct, hids]
    exact h.distinct
  prices := by
    intro x hx
    obtain ⟨y, hy, rfl⟩ := mem_amend.mp hx
    have hprice := h.prices y hy
    split <;> exact hprice
  topped s := fun t hocc => h.topped s t (occupied_shrink.mp hocc)

/-- An order with a side byte that names no side is alone at the best ask. -/
def LeavesStale (v : BookView) (o : Order) : Prop :=
  ¬ o.side.Named ∧ o.price = v.best false ∧ v.level false o.price = [o]

/-- What stays at the best ask without an order there. -/
theorem Dropped.stale (hdrop : v.Dropped o v') (h : v.Priced) (ho : o ∈ v.orders)
    (hstale : v.LeavesStale o) :
    v'.best false = o.price ∧ ¬ v'.Occupied false o.price := by
  obtain ⟨hnamed, hprice, hlevel⟩ := hstale
  have hside := Side.isBid_of_not_named hnamed
  have hbest := hdrop.best false
  rw [if_neg fun hc => hnamed (Or.inr hc.1)] at hbest
  have hnil := (hdrop.level_eq_nil_iff h.distinct ho).mpr (by rwa [hside])
  rw [hside] at hnil
  exact ⟨hbest.trans hprice.symm, fun hocc => level_ne_nil_iff.mpr hocc hnil⟩

/-- The best prices stay anchored exactly if the dropped order does not leave a stale one. -/
theorem Dropped.anchored_iff (hdrop : v.Dropped o v') (h : v.Priced) (ho : o ∈ v.orders)
    (ha : ∀ s, v.Anchored s) : (∀ s, v'.Anchored s) ↔ ¬ v.LeavesStale o := by
  constructor
  · intro ha' hstale
    obtain ⟨hbest, hfree⟩ := hdrop.stale h ho hstale
    have hanchored := ha' false
    rw [Anchored, hbest] at hanchored
    exact hanchored.elim (h.prices o ho) hfree
  · intro hkeep s
    refine hdrop.anchored (fun x hx => h.distinct.eq_of_id hx ho) ?_ (ha s)
    intro hs hprice hnil
    by_contra hnamed
    have hside := Side.isBid_of_not_named hnamed
    subst hs
    rw [hside] at hprice
    refine hkeep ⟨hnamed, hprice, ?_⟩
    have hlevel := (hdrop.level_eq_nil_iff h.distinct ho).mp hnil
    rwa [hside] at hlevel

/-- A modify keeps the best prices anchored exactly if it leaves no stale one, or hides it. -/
theorem Modified.anchored_iff {price qty : Int} (hmod : v.Modified o price qty v') (h : v.Priced)
    (ho : o ∈ v.orders) (ha : ∀ s, v.Anchored s) :
    (∀ s, v'.Anchored s) ↔ (price ≠ o.price → v.LeavesStale o → price < o.price) := by
  cases hmod with
  | inPlace hprice =>
    exact iff_of_true (fun s => Or.imp_right occupied_shrink.mpr (ha s)) fun hne => absurd hprice hne
  | @moved w hne hdrop =>
    by_cases hstale : v.LeavesStale o
    · obtain ⟨hbest, hfree⟩ := hdrop.stale h ho hstale
      have hside : (reentry o price qty).side.isBid = false := by
        rw [side_reentry]
        exact Side.isBid_of_not_named hstale.1
      have hvalid : w.best false ≠ invalidPrice := hbest ▸ h.prices o ho
      constructor
      · intro ha' _ _
        by_contra hnot
        -- the new price does not beat the stale one, so this stays where no order is
        have hkeep : (w.place (reentry o price qty) (entryDepth (reentry o price qty))).best false =
            w.best false := by
          refine if_neg fun hc => hc.2.elim hvalid fun hbetter => hnot ?_
          rwa [price_reentry, hbest] at hbetter
        have hanchored := ha' false
        rw [Anchored, hkeep, hbest] at hanchored
        refine (hanchored.resolve_left (h.prices o ho)).elim fun x hx => ?_
        rcases List.mem_append.mp hx.1 with hold | hnew
        · exact hfree ⟨x, hold, hx.2⟩
        · rw [List.mem_singleton.mp hnew] at hx
          exact hne ((price_reentry o price qty).symm.trans hx.2.2)
      · intro hlt s
        cases s with
        | true => exact (hdrop.anchored (fun x hx => h.distinct.eq_of_id hx ho)
            (fun hs => absurd hs (by rw [Side.isBid_of_not_named hstale.1]; exact Bool.false_ne_true))
            (ha true)).place _ _
        | false =>
          have hraise : (w.place (reentry o price qty)
              (entryDepth (reentry o price qty))).best false = price := by
            refine (if_pos ⟨hside.symm, Or.inr ?_⟩).trans (price_reentry o price qty)
            rw [price_reentry, hbest]
            exact hlt hne hstale
          rw [Anchored, hraise]
          exact Or.inr (occupied_place.mpr (Or.inr ⟨hside, price_reentry o price qty⟩))
    · have hw := (hdrop.anchored_iff h ho ha).mpr hstale
      exact iff_of_true (fun s => (hw s).place _ _) fun _ hs => absurd hs hstale

private theorem Modified.priced {price qty : Int} (hmod : v.Modified o price qty v') (h : v.Priced)
    (hprice : price ≠ invalidPrice) : v'.Priced := by
  cases hmod with
  | inPlace _ => exact h.shrink o qty
  | moved hne hdrop =>
    refine (h.dropped hdrop).place (fun x hx => ?_) (by rwa [price_reentry]) _
    rw [id_reentry]
    exact (hdrop.mem_iff.mp hx).2

private theorem Dropped.ids (h : v.Dropped o v') (hv : v.Distinct) :
    v'.orders.map (·.id) = (v.orders.map (·.id)).erase o.id := by
  rw [hv.erase_eq_filter, h.orders, List.filter_map]
  rfl

/-- The ids after a modify: the order is the last one if it moved. -/
theorem Modified.ids {price qty : Int} (hmod : v.Modified o price qty v') (hv : v.Distinct) :
    v'.orders.map (·.id) = if price ≠ o.price then (v.orders.map (·.id)).erase o.id ++ [o.id]
      else v.orders.map (·.id) := by
  cases hmod with
  | inPlace hprice =>
    rw [if_neg (not_not_intro hprice)]
    exact map_id_amend fun _ => rfl
  | moved hne hdrop =>
    rw [if_pos hne, place, List.map_append, hdrop.ids hv, List.map_singleton, id_reentry]

end BookView

namespace TrackedBook

variable {t : TrackedBook} {v : BookView}

/-- The view of a tracked book lists the orders as they arrived. -/
def Shown (t : TrackedBook) (v : BookView) : Prop :=
  ∃ ps, t.book.Stored ps ∧ t.book.view ps = v ∧ t.arrivals = v.orders.map (·.id)

private theorem shown_init : Shown {} ⟨[], fun _ _ => 0, fun _ => invalidPrice⟩ := by
  refine ⟨[], rep_init.toStored, BookView.ext rfl ?_ ?_, rfl⟩
  · funext s t
    cases s <;> rfl
  · funext s
    cases s <;> rfl

private theorem Shown.leavesStale_iff (h : t.Shown v) {o : Order} :
    t.book.LeavesStale o ↔ v.LeavesStale o := by
  obtain ⟨ps, hstored, rfl, -⟩ := h
  rw [OrderBook.LeavesStale, BookView.LeavesStale, hstored.queueOf]
  rfl

private theorem Shown.orderOf_eq_some_iff (h : t.Shown v) {id : OrderId} {o : Order} :
    t.book.orderOf id = some o ↔ o ∈ v.orders ∧ o.id = id := by
  obtain ⟨ps, hstored, rfl, -⟩ := h
  exact hstored.orderOf_eq_some_iff

/-- The order found under an id is the only one with that id. -/
theorem Shown.forall_orderOf (h : t.Shown v) (hv : v.Distinct) {o : Order} (ho : o ∈ v.orders)
    {P : Order → Prop} : (∀ x, t.book.orderOf o.id = some x → P x) ↔ P o := by
  constructor
  · exact fun hall => hall o (h.orderOf_eq_some_iff.mpr ⟨ho, rfl⟩)
  · intro hP x hx
    obtain ⟨hmem, hid⟩ := h.orderOf_eq_some_iff.mp hx
    rwa [hv.eq_of_id hmem ho hid]

/-- The best order is the oldest one at the best price. -/
theorem Shown.oldest (h : t.Shown v) {s : Bool}
    (hempty : v.best s = invalidPrice → ¬ v.Occupied s invalidPrice) :
    (t.book.bestOrder s).map (fun p => (t.book.pool.get p).id) =
      (t.arrivals.filter fun id =>
        (t.book.orderOf id).any fun o => o.At s (t.book.best s)).head? := by
  have hfind := fun {o : Order} (ho : o ∈ v.orders) => h.orderOf_eq_some_iff.mpr ⟨ho, rfl⟩
  obtain ⟨ps, hstored, rfl, harrivals⟩ := h
  have hfilter : t.arrivals.filter (fun id => (t.book.orderOf id).any fun o => o.At s (t.book.best s)) =
      ((t.book.view ps).level s (t.book.best s)).map (·.id) := by
    rw [harrivals, List.filter_map, BookView.level]
    refine congrArg _ (List.filter_congr fun o ho => ?_)
    rw [Function.comp_apply, hfind ho, Option.any_some]
  rw [hfilter]
  by_cases hinv : t.book.best s = invalidPrice
  · have hnil : (t.book.view ps).level s (t.book.best s) = [] := by
      by_contra hne
      rw [← ne_eq, BookView.level_ne_nil_iff, hinv] at hne
      exact hempty hinv hne
    rw [hnil, bestOrder, if_pos hinv]
    rfl
  · rw [hstored.bestOrder_eq hinv, level_view, List.map_map, List.head?_map]
    rfl

/-- The best prices are exact exactly if they are anchored. -/
theorem Shown.exact_iff (h : t.Shown v) (hv : v.Priced) : t.Exact ↔ ∀ s, v.Anchored s := by
  refine forall_congr' fun s => ?_
  have hbest : t.book.best = v.best := by
    obtain ⟨ps, -, rfl, -⟩ := h
    rfl
  have hkeys : ∀ price, price ∈ (t.book.levels s).keys ↔ v.Occupied s price := by
    intro price
    obtain ⟨ps, hstored, rfl, -⟩ := h
    rw [hstored.mem_keys_iff, BookView.level_ne_nil_iff]
  constructor
  · intro hexact
    rw [BookView.Anchored, ← hbest, ← hkeys]
    exact or_iff_not_imp_left.mpr hexact.key
  · intro ha
    refine ⟨?_, ?_, ?_, h.oldest fun _ => hv.not_occupied⟩
    · rw [hbest, BookView.best_eq_invalid_iff ha (hv.topped s), List.eq_nil_iff_forall_not_mem]
      simp only [h.orderOf_eq_some_iff, BookView.mem_side]
      exact ⟨fun hno id o ho hs => hno o ⟨ho.1, hs⟩, fun hno o ho => hno o.id o ⟨ho.1, rfl⟩ ho.2⟩
    · intro hne
      rw [hkeys]
      rw [hbest] at hne ⊢
      exact ha.resolve_left hne
    · intro price hprice
      rw [hbest]
      exact (hv.topped s price ((hkeys price).mp hprice)).2

/-- What one operation does: the book stays in order, and its best prices stay anchored exactly if
the operation meets the requirement. -/
def Steps (t : TrackedBook) (op : HashOrder × BookOp) : Prop :=
  ∃ t', t.perform op = some t' ∧ ∃ v', t'.Shown v' ∧ v'.Priced ∧
    ((∀ s, v'.Anchored s) ↔ KeepsBest t op)

/-- Adding an order keeps the best prices anchored, whether it is refused or not. -/
theorem Shown.added (h : t.Shown v) (hv : v.Priced) (ha : ∀ s, v.Anchored s) (o : Order)
    (shown : Int) (ho : o.unlink = o) (hfilled : o.filledQuantity = 0)
    (hprice : o.price ≠ invalidPrice) :
    ∃ v', (t.added o.id (t.book.placeOrder o shown)).Shown v' ∧ v'.Priced ∧
      ∀ s, v'.Anchored s := by
  obtain ⟨ps, hstored, rfl, harrivals⟩ := h
  by_cases hroom : (∀ x ∈ (t.book.view ps).orders, x.id ≠ o.id) ∧ ps.length < maxOrders
  · obtain ⟨p, b', hplace, -, hstored', hview, -⟩ := hstored.placeOrder shown ho hfilled
      (hstored.getOrder_eq_none_iff.mpr hroom.1) hroom.2
    refine ⟨_, ⟨ps ++ [p], ?_, rfl, ?_⟩, ?_, ?_⟩
    · rw [TrackedBook.added, hplace]
      exact hstored'
    · rw [TrackedBook.added, hplace]
      change t.arrivals ++ [o.id] = (b'.view (ps ++ [p])).orders.map (·.id)
      rw [hview, BookView.place, List.map_append, harrivals]
      rfl
    · rw [TrackedBook.added, hplace]
      change (b'.view (ps ++ [p])).Priced
      rw [hview]
      exact hv.place hroom.1 hprice shown
    · intro s
      rw [TrackedBook.added, hplace]
      change (b'.view (ps ++ [p])).Anchored s
      rw [hview]
      exact (ha s).place o shown
  · rw [TrackedBook.added, hstored.placeOrder_refused shown hroom]
    exact ⟨_, ⟨ps, hstored, rfl, harrivals⟩, hv, ha⟩

/-- Dropping the order found under an id. -/
theorem Shown.dropped (h : t.Shown v) (hv : v.Priced) (ha : ∀ s, v.Anchored s) {b' : OrderBook}
    {ps' : List Ptr} {o : Order} (ho : o ∈ v.orders) (hstored : b'.Stored ps')
    (hdrop : v.Dropped o (b'.view ps')) :
    (⟨b', t.arrivals.erase o.id⟩ : TrackedBook).Shown (b'.view ps') ∧ (b'.view ps').Priced ∧
      ((∀ s, (b'.view ps').Anchored s) ↔
        ∀ x, t.book.orderOf o.id = some x → ¬ t.book.LeavesStale x) := by
  refine ⟨⟨ps', hstored, rfl, ?_⟩, hv.dropped hdrop, ?_⟩
  · obtain ⟨-, -, -, harrivals⟩ := h
    rw [harrivals]
    exact (hdrop.ids hv.distinct).symm
  · rw [hdrop.anchored_iff hv ho ha, h.forall_orderOf hv.distinct ho, h.leavesStale_iff]

private theorem Shown.cancel (h : t.Shown v) (hv : v.Priced) (ha : ∀ s, v.Anchored s)
    (ord : HashOrder)
    (id : OrderId) : t.Steps (ord, .cancelOrder id) := by
  have hshown := h
  obtain ⟨ps, hstored, rfl, -⟩ := hshown
  rcases hstored.cancelOrder_cases ord id with
    ⟨o, ho, rfl, b', ps', hcancel, hstored', hdrop⟩ | ⟨hno, hcancel⟩
  · have hperform : t.perform (ord, .cancelOrder o.id) = some ⟨b', t.arrivals.erase o.id⟩ := by
      simp only [perform, hcancel, if_true]
    exact ⟨_, hperform, _, h.dropped hv ha ho hstored' hdrop⟩
  · have hperform : t.perform (ord, .cancelOrder id) = some t := by
      simp only [perform, hcancel, Bool.false_eq_true, if_false]
    refine ⟨t, hperform, _, h, hv, iff_of_true ha fun o ho => ?_⟩
    obtain ⟨hmem, hid⟩ := h.orderOf_eq_some_iff.mp ho
    exact absurd hid (hno o hmem)

private theorem Shown.release (h : t.Shown v) (hv : v.Priced) (ha : ∀ s, v.Anchored s)
    (ord : HashOrder)
    (id : OrderId) : t.Steps (ord, .releaseOrder id) := by
  have hshown := h
  obtain ⟨ps, hstored, rfl, -⟩ := hshown
  cases hl : t.book.getOrder id with
  | none =>
    have hperform : t.perform (ord, .releaseOrder id) = some t := by
      simp only [perform, hl]
    refine ⟨t, hperform, _, h, hv, iff_of_true ha fun o ho => ?_⟩
    rw [OrderBook.orderOf, hl] at ho
    cases ho
  | some p =>
    obtain ⟨hp, rfl⟩ := (hstored.map id p).mp hl
    obtain ⟨hstored', hdrop⟩ := hstored.discard ord hp
    have hperform : t.perform (ord, .releaseOrder (t.book.pool.get p).id) =
        some ⟨t.book.discard ord (t.book.pool.get p).id p,
          t.arrivals.erase (t.book.pool.get p).id⟩ := by
      simp only [perform, hl, hstored.release_eq_discard ord hp]
    have hdropped := h.dropped hv ha (mem_orders.mpr ⟨p, hp, rfl⟩) hstored' hdrop
    exact ⟨_, hperform, _, hdropped⟩

private theorem Shown.modify (h : t.Shown v) (hv : v.Priced) (ha : ∀ s, v.Anchored s)
    (ord : HashOrder)
    (id : OrderId) {price : Int} (qty : Int) (hprice : price ≠ invalidPrice) :
    t.Steps (ord, .modifyOrder id price qty) := by
  have hshown := h
  obtain ⟨ps, hstored, rfl, harrivals⟩ := hshown
  rcases hstored.modifyOrder_cases ord id price qty with
    ⟨o, ho, rfl, hpos, hle, b', ps', hmodify, hstored', hmod⟩ | ⟨hno, hmodify⟩
  · have hfind := h.orderOf_eq_some_iff.mpr ⟨ho, rfl⟩
    have hperform : t.perform (ord, .modifyOrder o.id price qty) =
        some ⟨b', (b'.view ps').orders.map (·.id)⟩ := by
      rw [hmod.ids hv.distinct, ← harrivals]
      simp only [perform, hmodify, hfind, Option.any_some, Bool.true_and, bne_iff_ne, ne_comm]
    refine ⟨_, hperform, _, ⟨ps', hstored', rfl, rfl⟩, hmod.priced hv hprice, ?_⟩
    rw [hmod.anchored_iff hv ho ha, ← h.leavesStale_iff]
    refine Iff.trans ?_ (h.forall_orderOf hv.distinct ho).symm
    exact ⟨fun hkeep _ _ => hkeep, fun hkeep => hkeep hpos hle⟩
  · have hperform : t.perform (ord, .modifyOrder id price qty) = some t := by
      simp only [perform, hmodify, Bool.false_and, Bool.false_eq_true, if_false]
    refine ⟨t, hperform, _, h, hv, iff_of_true ha fun o ho hpos hle => ?_⟩
    obtain ⟨hmem, hid⟩ := h.orderOf_eq_some_iff.mp ho
    exact absurd ⟨hpos, hle⟩ (hno o hmem hid)

/-- One operation keeps the best prices exact exactly if it meets the requirement. -/
theorem Shown.steps (h : t.Shown v) (hv : v.Priced) (ha : ∀ s, v.Anchored s)
    {op : HashOrder × BookOp} (hpriced : op.2.Priced) : t.Steps op := by
  obtain ⟨ord, op⟩ := op
  cases op with
  | addOrder id side price quantity ts =>
    obtain ⟨v', hshown, hv', ha'⟩ := h.added hv ha (limitOrder id side price quantity ts)
      quantity rfl rfl hpriced
    exact ⟨_, rfl, v', hshown, hv', iff_of_true ha' trivial⟩
  | addIcebergOrder id side price totalQty displayQty ts =>
    obtain ⟨v', hshown, hv', ha'⟩ := h.added hv ha
      (icebergOrder id side price totalQty displayQty ts) displayQty rfl rfl hpriced
    exact ⟨_, rfl, v', hshown, hv', iff_of_true ha' trivial⟩
  | cancelOrder id => exact h.cancel hv ha ord id
  | modifyOrder id newPrice newQty => exact h.modify hv ha ord id newQty hpriced
  | releaseOrder id => exact h.release hv ha ord id

end TrackedBook

/-- Over every run of operations of the book, the cached best prices are exact in every state
exactly if no operation removes the last order at the best ask while its side byte names no
side, unless it hides this by a better price. -/
theorem best_prices_exact_iff {ops : List (HashOrder × BookOp)} (hops : ∀ op ∈ ops, op.2.Priced) :
    Machine.Always TrackedBook.perform TrackedBook.Exact {} ops ↔
      Machine.Meets TrackedBook.perform KeepsBest {} ops := by
  refine Machine.always_iff_meets (fun t => ∃ v, t.Shown v ∧ v.Priced) ?_
    ⟨_, TrackedBook.shown_init, BookView.priced_empty⟩ ?_ (Machine.meets_of_forall _ hops _)
  · rintro t op ⟨v, hshown, hv⟩ hexact hpriced
    obtain ⟨t', hstep, v', hshown', hv', hiff⟩ :=
      hshown.steps hv ((hshown.exact_iff hv).mp hexact) hpriced
    exact ⟨t', hstep, ⟨v', hshown', hv'⟩, (hshown'.exact_iff hv').trans hiff⟩
  · exact (TrackedBook.shown_init.exact_iff BookView.priced_empty).mpr fun _ => Or.inl rfl

/-- Orders of both sides, an iceberg that displays more than it holds, a move and a release. -/
theorem best_prices_exact_mixed :
    Machine.Always TrackedBook.perform TrackedBook.Exact {}
      [(HashOrder.recent, .addOrder 1 .bid 100 5 0),
        (HashOrder.recent, .addIcebergOrder 2 .bid 101 3 9 0),
        (HashOrder.recent, .addOrder 3 .ask 110 5 0), (HashOrder.recent, .releaseOrder 2),
        (HashOrder.recent, .modifyOrder 1 (-4) 2), (HashOrder.recent, .cancelOrder 3)] :=
  (best_prices_exact_iff (by decide)).mpr (by decide +kernel)

/-- Two asks with the side byte 7: after the better one is cancelled, its price stays the best. -/
theorem unnamed_side_leaves_stale_best :
    ¬ ∀ ops : List (HashOrder × BookOp), (∀ op ∈ ops, op.2.Priced) →
      Machine.Always TrackedBook.perform TrackedBook.Exact {} ops := by
  intro h
  obtain ⟨-, h₁⟩ := h [(HashOrder.recent, .addOrder 1 (.raw 7) 100 5 0),
    (HashOrder.recent, .addOrder 2 (.raw 7) 90 5 0), (HashOrder.recent, .cancelOrder 2)] (by decide)
  obtain ⟨-, h₂⟩ := h₁ _ rfl
  obtain ⟨-, h₃⟩ := h₂ _ rfl
  exact absurd ((h₃ _ rfl false).key (by decide +kernel)) (by decide +kernel)

end LiquidityArena

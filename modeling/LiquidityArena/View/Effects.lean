import LiquidityArena.View.EngineTrace

/-!
# The effect of every engine call on the view

`Effect v call trades v'` says all that a call can do to a book with view `v`: the
refusals, the trades of the matching loop and what is left of the incoming order
afterwards. `perform_spec` and `run_spec` tie the effects to the engine; they also
say that every call returns.
-/

namespace LiquidityArena

open MatchingEngine OrderBook

/-- The order that `process_new_order` enters, with the worst price for a market order. -/
def NewOrder.order (n : NewOrder) : Order :=
  if n.type = .market then
    { limitOrder n.id n.side (if n.side = .bid then maxPrice else minPrice) n.quantity n.ts with
      type := .market }
  else if n.type = .iceberg then
    icebergOrder n.id n.side n.price n.quantity n.displayQty n.ts
  else limitOrder n.id n.side n.price n.quantity n.ts

/-- The parameter checks of `process_new_order`. -/
def NewOrder.Valid (n : NewOrder) : Prop :=
  ValidParams n.type n.price n.quantity n.displayQty

instance (n : NewOrder) : Decidable n.Valid := inferInstanceAs (Decidable (ValidParams ..))

/-- The id of the order a call is about. -/
def Call.id : Call → OrderId
  | .newOrder n => n.id
  | .cancel id => id
  | .modify id _ _ => id

namespace NewOrder

variable (n : NewOrder)

@[simp] theorem id_order : n.order.id = n.id := by
  unfold order
  split_ifs <;> rfl

@[simp] theorem side_order : n.order.side = n.side := by
  unfold order
  split_ifs <;> rfl

@[simp] theorem quantity_order : n.order.quantity = n.quantity := by
  unfold order
  split_ifs <;> rfl

@[simp] theorem remaining_order : n.order.remaining = n.quantity := by
  unfold order
  split_ifs <;> exact sub_zero _

@[simp] theorem unlink_order : n.order.unlink = n.order := by
  unfold order
  split_ifs <;> rfl

@[simp] theorem filledQuantity_order : n.order.filledQuantity = 0 := by
  unfold order
  split_ifs <;> rfl

/-- An order that is not a market order keeps its price. -/
theorem price_order (h : n.type ≠ .market) : n.order.price = n.price := by
  rw [order, if_neg h]
  split_ifs <;> rfl

/-- A market order that is no bid is entered at the lowest price there is. -/
theorem price_order_market (h : n.type = .market) (hside : n.side ≠ .bid) :
    n.order.price = minPrice := by
  rw [order, if_pos h, if_neg hside]
  rfl

/-- A byte that names no type is entered as a limit order. -/
theorem type_order : n.order.type =
    if n.type = .market then .market else if n.type = .iceberg then .iceberg else .limit := by
  unfold order
  split_ifs <;> rfl

/-- The order built is a market order exactly when one was asked for. -/
theorem type_order_eq_market : n.order.type = .market ↔ n.type = .market := by
  rw [type_order]
  split_ifs <;> simp_all

/-- The order built is an iceberg exactly when one was asked for. -/
theorem type_order_eq_iceberg : n.order.type = .iceberg ↔ n.type = .iceberg := by
  rw [type_order]
  split_ifs <;> simp_all

/-- An order that may rest has a price limit. -/
theorem limited_order (h : n.type ≠ .market) :
    n.order.type = .limit ∨ n.order.type = .iceberg := by
  rw [type_order, if_neg h]
  split_ifs <;> simp

/-- An iceberg is built with the display quantity asked for. -/
theorem displayQty_order (h : n.type = .iceberg) : n.order.displayQty = n.displayQty := by
  simp [order, h, icebergOrder]

/-- An iceberg is built hiding what it does not display. -/
theorem hiddenQty_order (h : n.type = .iceberg) :
    n.order.hiddenQty = n.quantity - n.displayQty := by
  simp [order, h, icebergOrder]

/-- A valid order asks for something. -/
theorem Valid.quantity_pos {n : NewOrder} (h : n.Valid) : 0 < n.quantity := not_le.mp h.1

/-- A valid iceberg displays something. -/
theorem Valid.displayQty_pos {n : NewOrder} (h : n.Valid) (hice : n.type = .iceberg) :
    0 < n.displayQty := by
  by_contra hle
  exact h.2.2 ⟨hice, Or.inr (not_lt.mp hle)⟩

/-- A valid order of a named type that may rest has a positive price. -/
theorem Valid.price_pos {n : NewOrder} (h : n.Valid) (hty : n.type = .limit ∨ n.type = .iceberg) :
    0 < n.price := by
  by_contra hle
  rcases hty with hty | hty
  · exact h.2.1 ⟨hty, not_lt.mp hle⟩
  · exact h.2.2 ⟨hty, Or.inl (not_lt.mp hle)⟩

end NewOrder

namespace BookView

/-- The order enters with the depth it shows. -/
def enter (v : BookView) (o : Order) : BookView := v.place o (entryDepth o)

/-- An order that enters does not touch the best price of the other side. -/
theorem best_enter_other (v : BookView) (o : Order) :
    (v.enter o).best (!o.side.isBid) = v.best (!o.side.isBid) := by
  simp [enter, place]

/-- The checks a new order passes before it enters the book. -/
structure Accepts (v : BookView) (n : NewOrder) : Prop where
  valid : n.Valid
  fresh : ∀ o ∈ v.orders, o.id ≠ n.id
  room : v.orders.length < maxOrders

/-- The spread test on the cached best prices. -/
def Crosses (v : BookView) (side : Side) (price : Int) : Prop :=
  side.Named ∧ v.best (!side.isBid) ≠ invalidPrice ∧ ¬ Better side.isBid (v.best (!side.isBid)) price

/-- What is left of the incoming order: a market order is removed unless filled, any
other order is removed when filled. -/
def Settled (type : OrderType) (v : BookView) (i : Order) (v' : BookView) : Prop :=
  if type = .market ↔ 0 < i.remaining then v.Dropped i v' else v' = v

/-- What a call can do to the view, with the trades it executes. -/
inductive Effect (v : BookView) : Call → List (Order × Int) → BookView → Prop
  | refused {n : NewOrder} : ¬ v.Accepts n → Effect v (.newOrder n) [] v
  | rested {n : NewOrder} : v.Accepts n → n.type ≠ .market → ¬ v.Crosses n.side n.price →
      Effect v (.newOrder n) [] (v.enter n.order)
  | matched {n : NewOrder} {trades : List (Order × Int)} {w v' : BookView} {i : Order} :
      v.Accepts n → (n.type ≠ .market → v.Crosses n.side n.price) →
      (v.enter n.order).Matched n.order trades w i → Settled n.type w i v' →
      Effect v (.newOrder n) trades v'
  | cancelled {o : Order} {v' : BookView} : o ∈ v.orders → v.Dropped o v' →
      Effect v (.cancel o.id) [] v'
  | notFound {id : OrderId} : (∀ o ∈ v.orders, o.id ≠ id) → Effect v (.cancel id) [] v
  | modified {o : Order} {price qty : Int} {v' : BookView} : o ∈ v.orders → 0 < qty →
      qty ≤ o.remaining → v.Modified o price qty v' → Effect v (.modify o.id price qty) [] v'
  | unmodified {id : OrderId} {price qty : Int} :
      (∀ o ∈ v.orders, o.id = id → ¬ (0 < qty ∧ qty ≤ o.remaining)) →
      Effect v (.modify id price qty) [] v

/-- An order that is refused does nothing. -/
theorem Effect.of_refused {v v' : BookView} {n : NewOrder} {trades : List (Order × Int)}
    (h : v.Effect (.newOrder n) trades v') (hno : ¬ v.Accepts n) : trades = [] ∧ v' = v := by
  cases h with
  | refused _ => exact ⟨rfl, rfl⟩
  | rested hacc _ _ => exact absurd hacc hno
  | matched hacc _ _ _ => exact absurd hacc hno

/-- An accepted order keeps a view sound. -/
theorem Sound.enter {v : BookView} (h : v.Sound) {n : NewOrder} (hacc : v.Accepts n) :
    (v.enter n.order).Sound :=
  h.place (by simpa using hacc.fresh) (by simpa using hacc.valid.quantity_pos.le) _

end BookView

namespace OrderBook.Rep

variable {b : OrderBook} {e : MatchingEngine} {ps : List Ptr} {p : Ptr}

/-- Changing what a listed order asks for, but not where it stands, changes one order of the view. -/
theorem retype (h : b.Rep ps) (hp : p ∈ ps) {f : Order → Order}
    (hf : ∀ o : Order, o.SameSpot (f o)) :
    { b with pool := b.pool.modify p f }.Rep ps := by
  refine h.retouch (f := fun _ _ l => l) (h.live.modify hp f) rfl (fun x _ => ?_)
    (fun _ _ => retouches_id) fun s t => ?_
  · rw [ObjectPool.get_modify]
    by_cases hx : x = p
    · rw [if_pos hx, hx]
      exact hf _
    · rw [if_neg hx]
      exact ⟨rfl, rfl, rfl, fun hice => ⟨hice, rfl⟩, rfl, rfl⟩
  · exact Option.map_id'.symm

/-- Entering an accepted order that is not a market order. -/
theorem enter_resting (h : b.Rep ps) {n : NewOrder} (hacc : (b.view ps).Accepts n)
    (hty : n.type ≠ .market) :
    ∃ p b', (if n.type = .iceberg then
        b.addIcebergOrder n.id n.side n.price n.quantity n.displayQty n.ts
      else b.addOrder n.id n.side n.price n.quantity n.ts) = (some p, b') ∧
      b'.Rep (ps ++ [p]) ∧ b'.view (ps ++ [p]) = (b.view ps).enter n.order ∧
      (b'.pool.get p).unlink = n.order := by
  have hroom : ps.length < maxOrders := by simpa [view] using hacc.room
  obtain ⟨p, b', hplace, -, hrep, hview, hget⟩ := h.placeOrder (BookView.entryDepth n.order)
    n.unlink_order n.filledQuantity_order
    (fun hice => by
      rw [n.type_order_eq_iceberg] at hice
      rw [n.displayQty_order hice]
      exact hacc.valid.displayQty_pos hice)
    (h.getOrder_eq_none_iff.mpr (by simpa using hacc.fresh)) hroom
  refine ⟨p, b', ?_, hrep, hview, hget⟩
  rw [← hplace, NewOrder.order, if_neg hty]
  by_cases hice : n.type = .iceberg
  · rw [if_pos hice, if_pos hice]
    rfl
  · rw [if_neg hice, if_neg hice]
    rfl

/-- Entering an accepted market order, first as a limit order and then retyped. -/
theorem enter_market (h : b.Rep ps) {n : NewOrder} (hacc : (b.view ps).Accepts n)
    (hty : n.type = .market) :
    ∃ p b', b.addOrder n.id n.side (if n.side = .bid then maxPrice else minPrice) n.quantity n.ts =
        (some p, b') ∧
      let typed := { b' with pool := b'.pool.modify p fun x => { x with type := .market } }
      typed.Rep (ps ++ [p]) ∧ typed.view (ps ++ [p]) = (b.view ps).enter n.order ∧
      (typed.pool.get p).unlink = n.order := by
  have hroom : ps.length < maxOrders := by simpa [view] using hacc.room
  set o := limitOrder n.id n.side (if n.side = .bid then maxPrice else minPrice) n.quantity n.ts
    with ho
  have horder : n.order = { o with type := .market } := if_pos hty
  obtain ⟨p, b', hplace, hp, hrep, hview, hget⟩ := h.placeOrder n.quantity (o := o) rfl rfl
    (fun hice => by simp [ho, limitOrder] at hice) (h.getOrder_eq_none_iff.mpr hacc.fresh) hroom
  refine ⟨p, b', hplace, hrep.retype (by simp) fun _ => ⟨rfl, rfl, rfl, by simp, rfl, rfl⟩, ?_, ?_⟩
  · have horders := congrArg BookView.orders hview
    simp only [view, BookView.place, List.map_append, List.map_cons, List.map_nil] at horders
    obtain ⟨hold, -⟩ := List.append_inj' horders rfl
    have hdepth : BookView.entryDepth n.order = n.quantity := by
      simp [horder, BookView.entryDepth, ho, limitOrder]
    refine BookView.ext ?_ ((congrArg BookView.total hview).trans ?_)
      ((congrArg BookView.best hview).trans ?_)
    · have hsame : (ps.map fun x => ((b'.pool.modify p fun x => { x with type := .market }).get
          x).unlink) = (b.view ps).orders := by
        refine Eq.trans (List.map_congr_left fun x hx => ?_) hold
        rw [ObjectPool.get_modify, if_neg fun he : x = p => hp (he ▸ hx)]
      simp only [view, BookView.enter, BookView.place, List.map_append, List.map_cons, List.map_nil]
      rw [hsame, ObjectPool.get_modify, if_pos rfl, horder, ← hget]
      rfl
    · rw [BookView.enter, hdepth, horder]
      rfl
    · rw [BookView.enter, horder]
      rfl
  · rw [ObjectPool.get_modify, if_pos rfl, horder, ← hget]
    rfl

/-- The matching of a listed order that has something left ends by an exit of its loop. -/
theorem matchOrder_spec (h : e.book.Rep ps) (hv : (e.book.view ps).Sound) (hp : p ∈ ps)
    (ord : HashOrder) :
    ∃ trades book ps', e.matchOrder ord p =
        some (e.settle (tradeMsgs e.fees (e.book.pool.get p).id trades) book) ∧
      book.Rep ps' ∧ p ∈ ps' ∧ (book.view ps').Sound ∧
      (e.book.view ps).Matched (e.book.pool.get p).unlink trades (book.view ps')
        (book.pool.get p).unlink := by
  apply h.matchLoop_spec hv hp ord
  rw [h.totalOrders_eq]
  omega

/-- Removing and releasing a listed order drops it from the view. -/
theorem release (h : b.Rep ps) (hv : (b.view ps).Sound) (hp : p ∈ ps) (ord : HashOrder) :
    let b' := (b.removeOrderFromLevel ord p).releaseOrder p
    b'.Rep (ps.erase p) ∧ (b'.view (ps.erase p)).Sound ∧
      (b.view ps).Dropped (b.pool.get p).unlink (b'.view (ps.erase p)) := by
  obtain ⟨hrep, hdrop⟩ := h.discard ord hp
  rw [h.release_eq_discard ord hp]
  exact ⟨hrep, hdrop.sound hv, hdrop⟩

/-- The market branch. -/
theorem processMarket_spec (h : e.book.Rep ps) (hv : (e.book.view ps).Sound) (ord : HashOrder)
    {n : NewOrder} (hty : n.type = .market) (hvalid : n.Valid) :
    ∃ r trades book ps', e.processMarket ord n.id n.side n.quantity n.ts =
        some (r, e.settle (tradeMsgs e.fees n.id trades) book) ∧
      book.Rep ps' ∧ (book.view ps').Sound ∧
      (e.book.view ps).Effect (.newOrder n) trades (book.view ps') := by
  by_cases hacc : (e.book.view ps).Accepts n
  · obtain ⟨p, b', hadd, hrep, hview, hget⟩ := h.enter_market hacc hty
    set typed := { b' with pool := b'.pool.modify p fun x => { x with type := .market } }
    have hsound : (typed.view (ps ++ [p])).Sound := by
      rw [hview]
      exact hv.enter hacc
    have hid : (typed.pool.get p).id = n.id := by rw [← Order.id_unlink, hget, n.id_order]
    obtain ⟨trades, book, ps', hmatch, hrep', hp', hv', hmatched⟩ :=
      matchOrder_spec (e := { e with book := typed }) (p := p) hrep hsound (by simp) ord
    rw [hget, hview] at hmatched
    rw [hid] at hmatch
    have hcall : e.processMarket ord n.id n.side n.quantity n.ts =
        ({ e with book := typed }.matchOrder ord p).bind fun matched =>
          if (matched.book.pool.get p).remaining > 0 then
            some (none, { matched with
              book := (matched.book.removeOrderFromLevel ord p).releaseOrder p })
          else some (none, matched) := by
      rw [MatchingEngine.processMarket, hadd]
      rfl
    rw [hcall, hmatch, Option.bind_some]
    by_cases hrem : (book.pool.get p).remaining > 0
    · obtain ⟨hrep'', hv'', hdrop⟩ := hrep'.release hv' hp' ord
      refine ⟨none, trades, _, _, ?_, hrep'', hv'', .matched hacc (absurd hty) hmatched ?_⟩
      · exact (if_pos hrem).trans (by simp only [settle, foldl_record_book])
      · rwa [BookView.Settled, if_pos (by simpa [hty] using hrem)]
    · refine ⟨none, trades, book, ps', ?_, hrep', hv', .matched hacc (absurd hty) hmatched ?_⟩
      · exact (if_neg hrem).trans (by simp only [settle, foldl_record_book])
      · rw [BookView.Settled, if_neg (by simpa [hty] using hrem)]
  · refine ⟨none, [], e.book, ps, ?_, h, hv, .refused hacc⟩
    rw [MatchingEngine.processMarket, addOrder, h.placeOrder_refused]
    · rfl
    · rintro ⟨hfresh, hroom⟩
      exact hacc ⟨hvalid, hfresh, by simpa [view] using hroom⟩

/-- The spread test sees only the other side, which the entered order does not change. -/
theorem crosses_of_view {v : BookView} {n : NewOrder} (hview : b.view ps = v.enter n.order) :
    MatchingEngine.Crosses b n.side n.price ↔ v.Crosses n.side n.price := by
  have hbest : ∀ s, s ≠ n.side.isBid → b.best s = v.best s := by
    intro s hs
    have := congrFun (congrArg BookView.best hview) s
    simpa [BookView.enter, BookView.place, hs] using this
  rw [MatchingEngine.Crosses, BookView.Crosses, ← hbest _ (by simp)]
  cases n.side <;> simp [Side.Named, best, Better]

/-- The branch for orders that may rest. -/
theorem processResting_spec (h : e.book.Rep ps) (hv : (e.book.view ps).Sound) (ord : HashOrder)
    {n : NewOrder} (hty : n.type ≠ .market) (hvalid : n.Valid) :
    ∃ r trades book ps', e.processResting ord n.id n.side n.type n.price n.quantity n.ts
          n.displayQty = some (r, e.settle (tradeMsgs e.fees n.id trades) book) ∧
      book.Rep ps' ∧ (book.view ps').Sound ∧
      (e.book.view ps).Effect (.newOrder n) trades (book.view ps') := by
  by_cases hacc : (e.book.view ps).Accepts n
  · obtain ⟨p, added, hadd, hrep, hview, hget⟩ := h.enter_resting hacc hty
    have hsound : (added.view (ps ++ [p])).Sound := by
      rw [hview]
      exact hv.enter hacc
    have hid : (added.pool.get p).id = n.id := by rw [← Order.id_unlink, hget, n.id_order]
    have hcross := crosses_of_view (n := n) hview
    rw [MatchingEngine.processResting, hadd]
    by_cases hc : MatchingEngine.Crosses added n.side n.price
    · obtain ⟨trades, book, ps', hmatch, hrep', hp', hv', hmatched⟩ :=
        matchOrder_spec (e := { e with book := added }) (p := p) hrep hsound (by simp) ord
      rw [hget, hview] at hmatched
      rw [hid] at hmatch
      simp only [hc, if_true, hmatch, Option.bind_eq_bind, Option.bind_some]
      by_cases hrem : (book.pool.get p).remaining ≤ 0
      · obtain ⟨hrep'', hv'', hdrop⟩ := hrep'.release hv' hp' ord
        refine ⟨none, trades, _, _, ?_, hrep'', hv'',
          .matched hacc (fun _ => hcross.mp hc) hmatched ?_⟩
        · exact (if_pos hrem).trans (by simp only [settle, foldl_record_book])
        · rwa [BookView.Settled, if_pos (by simpa [hty] using hrem)]
      · refine ⟨some p, trades, book, ps', ?_, hrep', hv',
          .matched hacc (fun _ => hcross.mp hc) hmatched ?_⟩
        · exact (if_neg hrem).trans (by simp only [settle, foldl_record_book])
        · rw [BookView.Settled, if_neg (by simpa [hty] using hrem)]
    · refine ⟨some p, [], added, ps ++ [p], if_neg hc, hrep, hsound, ?_⟩
      rw [hview]
      exact .rested hacc hty fun hcv => hc (hcross.mpr hcv)
  · refine ⟨none, [], e.book, ps, ?_, h, hv, .refused hacc⟩
    have hno : ¬ ((∀ x ∈ (e.book.view ps).orders, x.id ≠ n.id) ∧ ps.length < maxOrders) :=
      fun hok => hacc ⟨hvalid, hok.1, by simpa [view] using hok.2⟩
    rw [MatchingEngine.processResting, addIcebergOrder, addOrder, h.placeOrder_refused _ hno,
      h.placeOrder_refused _ hno, ite_self]
    rfl

/-- Every new order returns, with one of the effects. -/
theorem processNewOrder_spec (h : e.book.Rep ps) (hv : (e.book.view ps).Sound) (ord : HashOrder)
    (n : NewOrder) :
    ∃ r trades book ps', e.processNewOrder ord n.id n.side n.type n.price n.quantity n.ts
          n.displayQty = some (r, { e with totalOrders := e.totalOrders + 1 }.settle
            (tradeMsgs e.fees n.id trades) book) ∧
      book.Rep ps' ∧ (book.view ps').Sound ∧
      (e.book.view ps).Effect (.newOrder n) trades (book.view ps') := by
  rw [MatchingEngine.processNewOrder]
  by_cases hvalid : ValidParams n.type n.price n.quantity n.displayQty
  · rw [if_pos hvalid]
    by_cases hty : n.type = .market
    · rw [if_pos hty]
      exact processMarket_spec (e := { e with totalOrders := e.totalOrders + 1 }) h hv ord hty
        hvalid
    · rw [if_neg hty]
      exact processResting_spec (e := { e with totalOrders := e.totalOrders + 1 }) h hv ord hty
        hvalid
  · rw [if_neg hvalid]
    exact ⟨none, [], e.book, ps, rfl, h, hv, .refused fun hacc => hvalid hacc.valid⟩

end OrderBook.Rep

@[simp] theorem BookView.id_reentry (o : Order) (price qty : Int) :
    (reentry o price qty).id = o.id := by
  unfold reentry
  split <;> rfl

@[simp] theorem BookView.side_reentry (o : Order) (price qty : Int) :
    (reentry o price qty).side = o.side := by
  unfold reentry
  split <;> rfl

@[simp] theorem BookView.price_reentry (o : Order) (price qty : Int) :
    (reentry o price qty).price = price := by
  unfold reentry
  split <;> rfl

@[simp] theorem BookView.remaining_reentry (o : Order) (price qty : Int) :
    (reentry o price qty).remaining = qty := by
  unfold reentry
  split <;> exact sub_zero _

/-- A modify keeps a view sound. -/
theorem BookView.Modified.sound {v v' : BookView} {o : Order} {price qty : Int}
    (h : v.Modified o price qty v') (hv : v.Sound) (hqty : 0 < qty) : v'.Sound := by
  cases h with
  | inPlace => exact hv.shrink o hqty.le
  | moved hne hdrop =>
    refine (hdrop.sound hv).place (fun x hx => ?_) (by simpa using hqty.le) _
    rw [id_reentry]
    exact (hdrop.mem_iff.mp hx).2

/-- The book is well represented and looks like the view. -/
def OrderBook.Shows (b : OrderBook) (v : BookView) : Prop :=
  ∃ ps, b.Rep ps ∧ b.view ps = v ∧ v.Sound

/-- The empty book shows the empty view. -/
theorem OrderBook.shows_init : OrderBook.init.Shows ⟨[], fun _ _ => 0, fun _ => invalidPrice⟩ := by
  refine ⟨[], rep_init, BookView.ext rfl ?_ ?_, ⟨List.nodup_nil, by simp⟩⟩
  · funext s t
    cases s <;> rfl
  · funext s
    cases s <;> rfl

namespace MatchingEngine

variable {e : MatchingEngine} {v : BookView}

/-- A cancel succeeds exactly when the id names an order, which it drops. -/
theorem processCancel_spec (h : e.book.Shows v) (ord : HashOrder) (id : OrderId) :
    ∃ ok v', (e.processCancel ord id).1 = ok ∧ (e.processCancel ord id).2.book.Shows v' ∧
      (e.processCancel ord id).2.fees = e.fees ∧ (e.processCancel ord id).2.fills = e.fills ∧
      v.Effect (.cancel id) [] v' ∧ (ok = true ↔ ∃ o ∈ v.orders, o.id = id) := by
  obtain ⟨ps, hrep, rfl, hv⟩ := h
  rcases hrep.cancelOrder_cases ord id with
    ⟨o, ho, rfl, b', ps', hcall, hrep', hdrop⟩ | ⟨hno, hcall⟩
  · simp only [processCancel, hcall]
    exact ⟨true, _, rfl, ⟨ps', hrep', rfl, hdrop.sound hv⟩, trivial, trivial, .cancelled ho hdrop,
      iff_of_true rfl ⟨o, ho, rfl⟩⟩
  · simp only [processCancel, hcall]
    exact ⟨false, _, rfl, ⟨ps, hrep, rfl, hv⟩, trivial, trivial, .notFound hno,
      iff_of_false Bool.false_ne_true fun ⟨o, ho, hid⟩ => hno o ho hid⟩

/-- A modify succeeds exactly when the id names an order of which the new quantity remains. -/
theorem processModify_spec (h : e.book.Shows v) (ord : HashOrder) (id : OrderId)
    (price qty : Int) :
    ∃ ok v', (e.processModify ord id price qty).1 = ok ∧
      (e.processModify ord id price qty).2.book.Shows v' ∧
      (e.processModify ord id price qty).2.fees = e.fees ∧
      (e.processModify ord id price qty).2.fills = e.fills ∧
      v.Effect (.modify id price qty) [] v' ∧
      (ok = true ↔ ∃ o ∈ v.orders, o.id = id ∧ 0 < qty ∧ qty ≤ o.remaining) := by
  obtain ⟨ps, hrep, rfl, hv⟩ := h
  rcases hrep.modifyOrder_cases ord id price qty with
    ⟨o, ho, rfl, hpos, hle, b', ps', hcall, hrep', hmod⟩ | ⟨hno, hcall⟩
  · simp only [processModify, hcall]
    exact ⟨true, _, rfl, ⟨ps', hrep', rfl, hmod.sound hv hpos⟩, trivial, trivial,
      .modified ho hpos hle hmod, iff_of_true rfl ⟨o, ho, rfl, hpos, hle⟩⟩
  · simp only [processModify, hcall]
    exact ⟨false, _, rfl, ⟨ps, hrep, rfl, hv⟩, trivial, trivial, .unmodified hno,
      iff_of_false Bool.false_ne_true fun ⟨o, ho, hid, hok⟩ => hno o ho hid hok⟩

/-- Every call returns, leaves a well represented book and logs its trades. -/
theorem perform_spec (h : e.book.Shows v) (ord : HashOrder) (call : Call) :
    ∃ e' trades v', e.perform ord call = some e' ∧ e'.book.Shows v' ∧ v.Effect call trades v' ∧
      e'.fees = e.fees ∧ e'.fills = e.fills ++ tradeMsgs e.fees call.id trades := by
  cases call with
  | newOrder n =>
    obtain ⟨ps, hrep, rfl, hv⟩ := h
    obtain ⟨r, trades, book, ps', hcall, hrep', hv', heffect⟩ := hrep.processNewOrder_spec hv ord n
    refine ⟨{ e with totalOrders := e.totalOrders + 1 }.settle (tradeMsgs e.fees n.id trades) book,
      trades, _, ?_, ⟨ps', hrep', rfl, hv'⟩, heffect, fees_settle .., fills_settle ..⟩
    rw [perform, hcall]
    rfl
  | cancel id =>
    obtain ⟨ok, v', -, hshows, hfees, hfills, heffect, -⟩ := processCancel_spec h ord id
    exact ⟨_, [], v', rfl, hshows, heffect, hfees, hfills.trans (List.append_nil _).symm⟩
  | modify id price qty =>
    obtain ⟨ok, v', -, hshows, hfees, hfills, heffect, -⟩ := processModify_spec h ord id price qty
    exact ⟨_, [], v', rfl, hshows, heffect, hfees, hfills.trans (List.append_nil _).symm⟩

/-- Every call of the run meets a requirement on the book it finds. -/
def RunMeets (Ok : OrderBook → Call → Prop) (e : MatchingEngine) : List (HashOrder × Call) → Prop
  | [] => True
  | (ord, call) :: calls =>
    Ok e.book call ∧ ∀ e', e.perform ord call = some e' → RunMeets Ok e' calls

/-- The run returns and every state it reaches, the first included, has the property. -/
def RunAlways (P : OrderBook → Prop) (e : MatchingEngine) : List (HashOrder × Call) → Prop
  | [] => P e.book
  | (ord, call) :: calls => P e.book ∧ ∃ e', e.perform ord call = some e' ∧ RunAlways P e' calls

/-- A requirement that does not look at the book is met by a run when all calls meet it. -/
theorem runMeets_of_forall {P : Call → Prop} {calls : List (HashOrder × Call)}
    (h : ∀ c ∈ calls, P c.2) (e : MatchingEngine) : e.RunMeets (fun _ => P) calls := by
  induction calls generalizing e with
  | nil => trivial
  | cons c calls ih =>
    exact ⟨h c List.mem_cons_self, fun e' _ => ih (fun c hc => h c (List.mem_cons_of_mem _ hc)) e'⟩

/-- A requirement on the book together with one that does not look at it. -/
theorem RunMeets.and_forall {P : Call → Prop} {Ok : OrderBook → Call → Prop}
    {calls : List (HashOrder × Call)} {e : MatchingEngine} (h : e.RunMeets Ok calls)
    (hall : ∀ c ∈ calls, P c.2) : e.RunMeets (fun b call => P call ∧ Ok b call) calls := by
  induction calls generalizing e with
  | nil => trivial
  | cons c calls ih =>
    exact ⟨⟨hall c List.mem_cons_self, h.1⟩, fun e' he' =>
      ih (h.2 e' he') fun c hc => hall c (List.mem_cons_of_mem _ hc)⟩

/-- The calls up to any point of the run meet the requirement. -/
theorem RunMeets.take {Ok : OrderBook → Call → Prop} {calls : List (HashOrder × Call)}
    {e : MatchingEngine} (h : e.RunMeets Ok calls) (k : Nat) : e.RunMeets Ok (calls.take k) := by
  induction calls generalizing e k with
  | nil => rwa [List.take_nil]
  | cons c calls ih =>
    cases k with
    | zero => trivial
    | succ k => exact ⟨h.1, fun e' he' => ih (h.2 e' he') k⟩

/-- The calls up to a point and those after it meet the requirement. -/
theorem RunMeets.split {Ok : OrderBook → Call → Prop} {calls calls' : List (HashOrder × Call)}
    {e : MatchingEngine} (h : e.RunMeets Ok (calls ++ calls')) :
    e.RunMeets Ok calls ∧ ∀ e', e.run calls = some e' → e'.RunMeets Ok calls' := by
  induction calls generalizing e with
  | nil =>
    refine ⟨trivial, fun e' he' => ?_⟩
    obtain rfl := Option.some.inj he'
    exact h
  | cons c calls ih =>
    refine ⟨⟨h.1, fun e' he' => (ih (h.2 e' he')).1⟩, fun e'' hrun => ?_⟩
    obtain ⟨e', hcall, hrest⟩ := Option.bind_eq_some_iff.mp hrun
    exact (ih (h.2 e' hcall)).2 e'' hrest

/-- The property holds throughout a run exactly if it holds after its calls up to any point. -/
theorem runAlways_iff_take {P : OrderBook → Prop} {calls : List (HashOrder × Call)} :
    e.RunAlways P calls ↔ ∀ k, ∃ e', e.run (calls.take k) = some e' ∧ P e'.book := by
  induction calls generalizing e with
  | nil =>
    simp only [List.take_nil]
    exact ⟨fun h _ => ⟨e, rfl, h⟩, fun h => by
      obtain ⟨e', he', hp⟩ := h 0
      exact (Option.some.inj he') ▸ hp⟩
  | cons c calls ih =>
    obtain ⟨ord, call⟩ := c
    constructor
    · rintro ⟨hp, e', hcall, hlater⟩ k
      cases k with
      | zero => exact ⟨e, rfl, hp⟩
      | succ k =>
        rw [List.take_succ_cons, run, hcall]
        exact ih.mp hlater k
    · intro h
      obtain ⟨e₀, he₀, hp⟩ := h 0
      obtain rfl := Option.some.inj he₀
      obtain ⟨e₁, he₁, -⟩ := h 1
      obtain ⟨e', hcall, -⟩ := Option.bind_eq_some_iff.mp he₁
      refine ⟨hp, e', hcall, ih.mpr fun k => ?_⟩
      obtain ⟨e'', he'', hp''⟩ := h (k + 1)
      rw [List.take_succ_cons, run, hcall] at he''
      exact ⟨e'', he'', hp''⟩

/-- What every call that meets the requirement preserves holds after a run of such calls. -/
theorem run_rule (Inv : BookView → Prop) (Ok : OrderBook → Call → Prop)
    (hstep : ∀ {b v call trades b' v'}, OrderBook.Shows b v → Inv v → Ok b call →
      v.Effect call trades v' → OrderBook.Shows b' v' → Inv v')
    {calls : List (HashOrder × Call)} (h : e.book.Shows v) (hi : Inv v)
    (hok : e.RunMeets Ok calls) :
    ∃ e' v', e.run calls = some e' ∧ e'.book.Shows v' ∧ Inv v' := by
  induction calls generalizing e v with
  | nil => exact ⟨e, v, rfl, h, hi⟩
  | cons c calls ih =>
    obtain ⟨ord, call⟩ := c
    obtain ⟨e', trades, v', hcall, hshows, heffect, -⟩ := perform_spec h ord call
    rw [run, hcall]
    exact ih hshows (hstep h hi hok.1 heffect hshows) (hok.2 e' hcall)

/-- When each call keeps the property exactly if it meets the requirement, a run keeps the
property throughout exactly if all its calls do. -/
theorem runAlways_iff {Inv : BookView → Prop} {Fits Ok : OrderBook → Call → Prop}
    {P : OrderBook → Prop}
    (hstep : ∀ {b v call trades b' v'}, OrderBook.Shows b v → Inv v → P b → Fits b call →
      v.Effect call trades v' → OrderBook.Shows b' v' → Inv v' ∧ (P b' ↔ Ok b call))
    {calls : List (HashOrder × Call)} (h : e.book.Shows v) (hi : Inv v) (hp : P e.book)
    (hfits : e.RunMeets Fits calls) : e.RunAlways P calls ↔ e.RunMeets Ok calls := by
  induction calls generalizing e v with
  | nil => exact iff_of_true hp trivial
  | cons c calls ih =>
    obtain ⟨ord, call⟩ := c
    obtain ⟨e', trades, v', hcall, hshows, heffect, -⟩ := perform_spec h ord call
    obtain ⟨hi', hiff⟩ := hstep h hi hp hfits.1 heffect hshows
    have hrest := fun hp' => ih hshows hi' hp' (hfits.2 e' hcall)
    constructor
    · rintro ⟨-, e'', hcall', hlater⟩
      obtain rfl := Option.some.inj (hcall.symm.trans hcall')
      have hp' : P e'.book := by
        cases calls with
        | nil => exact hlater
        | cons _ _ => exact hlater.1
      refine ⟨hiff.mp hp', fun e'' hcall' => ?_⟩
      obtain rfl := Option.some.inj (hcall.symm.trans hcall')
      exact (hrest hp').mp hlater
    · rintro ⟨hok, hlater⟩
      exact ⟨hp, e', hcall, (hrest (hiff.mpr hok)).mpr (hlater e' hcall)⟩

end MatchingEngine

/-- The state in which `process_new_order` calls `match_order`, if it does. -/
def MatchingEngine.entered (e : MatchingEngine) (n : NewOrder) : Option (Ptr × MatchingEngine) :=
  let counted := { e with totalOrders := e.totalOrders + 1 }
  if n.Valid then
    if n.type = .market then
      match e.book.addOrder n.id n.side (if n.side = .bid then maxPrice else minPrice) n.quantity
          n.ts with
      | (none, _) => none
      | (some p, added) => some (p, { counted with
          book := { added with pool := added.pool.modify p fun x => { x with type := .market } } })
    else
      match (if n.type = .iceberg then
          e.book.addIcebergOrder n.id n.side n.price n.quantity n.displayQty n.ts
        else e.book.addOrder n.id n.side n.price n.quantity n.ts) with
      | (none, _) => none
      | (some p, book) =>
        if Crosses book n.side n.price then some (p, { counted with book }) else none
  else none

/-- What `process_new_order` does when `match_order` has returned. -/
def MatchingEngine.finish (type : OrderType) (ord : HashOrder) (p : Ptr)
    (matched : MatchingEngine) : Option Ptr × MatchingEngine :=
  if type = .market ↔ 0 < (matched.book.pool.get p).remaining then
    (none, { matched with book := (matched.book.removeOrderFromLevel ord p).releaseOrder p })
  else (if type = .market then none else some p, matched)

/-- A new order that is matched is matched in the state `entered`, and nothing else is. -/
theorem MatchingEngine.processNewOrder_of_entered {e e₀ : MatchingEngine} {n : NewOrder} {p : Ptr}
    (h : e.entered n = some (p, e₀)) (ord : HashOrder) :
    e.processNewOrder ord n.id n.side n.type n.price n.quantity n.ts n.displayQty =
      (e₀.matchOrder ord p).map (finish n.type ord p) := by
  unfold entered at h
  unfold processNewOrder
  split at h
  · rename_i hvalid
    rw [if_pos (show ValidParams n.type n.price n.quantity n.displayQty from hvalid)]
    split at h
    · rename_i hty
      rw [if_pos hty, processMarket]
      dsimp only at h ⊢
      generalize e.book.addOrder n.id n.side (if n.side = .bid then maxPrice else minPrice)
        n.quantity n.ts = placed at h ⊢
      obtain ⟨_ | p', added⟩ := placed
      · cases h
      · obtain ⟨rfl, rfl⟩ := Prod.mk.inj (Option.some.inj h)
        rw [Option.map_eq_bind]
        refine congrArg (Option.bind _) (funext fun matched => ?_)
        simp only [Function.comp_apply, finish, hty, true_iff, if_true, gt_iff_lt]
        split <;> rfl
    · rename_i hty
      rw [if_neg hty, processResting]
      dsimp only at h ⊢
      generalize (if n.type = .iceberg then
          e.book.addIcebergOrder n.id n.side n.price n.quantity n.displayQty n.ts
        else e.book.addOrder n.id n.side n.price n.quantity n.ts) = placed at h ⊢
      obtain ⟨_ | p', book⟩ := placed
      · cases h
      · by_cases hcross : Crosses book n.side n.price
        · dsimp only at h ⊢
          rw [if_pos hcross] at h
          obtain ⟨rfl, rfl⟩ := Prod.mk.inj (Option.some.inj h)
          rw [if_pos hcross, Option.map_eq_bind]
          refine congrArg (Option.bind _) (funext fun matched => ?_)
          simp only [Function.comp_apply, finish, hty, false_iff, not_lt, if_false]
          split <;> rfl
        · dsimp only at h
          rw [if_neg hcross] at h
          cases h
  · cases h

/-- A new order is matched when it is accepted and is a market order or crosses the spread. -/
theorem OrderBook.Rep.entered_cases {e : MatchingEngine} {ps : List Ptr} (h : e.book.Rep ps)
    (n : NewOrder) :
    (e.entered n = none ∧ ((e.book.view ps).Accepts n →
        n.type ≠ .market ∧ ¬ (e.book.view ps).Crosses n.side n.price)) ∨
      ∃ p e₀, e.entered n = some (p, e₀) ∧ (e.book.view ps).Accepts n ∧
        e₀.book.Rep (ps ++ [p]) ∧ e₀.book.view (ps ++ [p]) = (e.book.view ps).enter n.order ∧
        (e₀.book.pool.get p).unlink = n.order := by
  by_cases hacc : (e.book.view ps).Accepts n
  · by_cases hty : n.type = .market
    · obtain ⟨p, added, hadd, hrep, hview, hget⟩ := h.enter_market hacc hty
      set typed := { added with pool := added.pool.modify p fun x => { x with type := .market } }
      refine Or.inr ⟨p, { e with totalOrders := e.totalOrders + 1, book := typed }, ?_, hacc, hrep,
        hview, hget⟩
      rw [entered, if_pos hacc.valid, if_pos hty, hadd]
    · obtain ⟨p, added, hadd, hrep, hview, hget⟩ := h.enter_resting hacc hty
      have hcross := crosses_of_view (n := n) hview
      by_cases hc : (e.book.view ps).Crosses n.side n.price
      · refine Or.inr ⟨p, { e with totalOrders := e.totalOrders + 1, book := added }, ?_, hacc, hrep,
          hview, hget⟩
        rw [entered, if_pos hacc.valid, if_neg hty, hadd]
        exact if_pos (hcross.mpr hc)
      · refine Or.inl ⟨?_, fun _ => ⟨hty, hc⟩⟩
        rw [entered, if_pos hacc.valid, if_neg hty, hadd]
        exact if_neg fun hc' => hc (hcross.mp hc')
  · refine Or.inl ⟨?_, fun hacc' => absurd hacc' hacc⟩
    rw [entered]
    by_cases hvalid : n.Valid
    · have hno : ¬ ((∀ x ∈ (e.book.view ps).orders, x.id ≠ n.id) ∧ ps.length < maxOrders) :=
        fun hok => hacc ⟨hvalid, hok.1, by simpa [view] using hok.2⟩
      rw [if_pos hvalid, addOrder, addIcebergOrder, addOrder, h.placeOrder_refused _ hno,
        h.placeOrder_refused _ hno, h.placeOrder_refused _ hno, ite_self, ite_self]
    · exact if_neg hvalid

end LiquidityArena

import LiquidityArena.Spec.PriceTime
import LiquidityArena.View.Observe

/-!
# The engine refines price-time priority

Under limit orders, cancels and modifies the view of the book, read as a list of
entries, moves exactly as the abstract book of `PriceTime`. The matching loop is
simulated trade by trade: the incoming order stands at the end of the view while
the abstract sweep carries it beside the book.
-/

namespace LiquidityArena

open OrderBook

/-- What the abstract book knows about an order. -/
def Order.entry (o : Order) : PriceTime.Entry := ⟨o.id, o.side.isBid, o.price, o.remaining⟩

@[simp] theorem Order.entry_id (o : Order) : o.entry.id = o.id := rfl

@[simp] theorem Order.entry_isBid (o : Order) : o.entry.isBid = o.side.isBid := rfl

@[simp] theorem Order.entry_price (o : Order) : o.entry.price = o.price := rfl

@[simp] theorem Order.entry_remaining (o : Order) : o.entry.remaining = o.remaining := rfl

/-- What the abstract book knows about a fill. -/
def FillMsg.fill (msg : FillMsg) : PriceTime.Fill :=
  ⟨msg.makerId, msg.takerId, msg.price, msg.quantity⟩

/-- The fill of a trade with the incoming order `takerId`. -/
def tradeFill (takerId : OrderId) (trade : Order × Int) : PriceTime.Fill :=
  ⟨trade.1.id, takerId, trade.1.price, trade.2⟩

namespace BookView

variable {v v' : BookView} {i i' m o : Order} {q : Int} {trades : List (Order × Int)} {call : Call}
  {os : List Order}

/-- The abstract best order is the front of the queue at the cached best price. -/
theorem best_entries {s : Bool} (ha : v.Anchored s) (ht : v.Topped s)
    (hos : ∀ o : Order, o.side.isBid = s → (o ∈ os ↔ o ∈ v.orders)) :
    PriceTime.best (os.map Order.entry) s = (os.filter (·.At s (v.best s))).head?.map Order.entry := by
  rw [PriceTime.best, List.find?_map, List.head?_filter]
  congr 1
  apply List.find?_congr
  intro o ho
  rw [Function.comp_apply, decide_eq_decide]
  simp only [Order.entry, List.mem_map, forall_exists_index, and_imp, forall_apply_eq_imp_iff₂]
  constructor
  · rintro ⟨hs, htop⟩
    refine ⟨hs, (ht.best_eq ha ⟨o, (hos o hs).mp ho, hs, rfl⟩ ?_).symm⟩
    rintro t' ⟨x, hx, hxs, rfl⟩
    exact htop x ((hos x hxs).mpr hx) hxs
  · rintro ⟨hs, hp⟩
    refine ⟨hs, fun x hx hxs => ?_⟩
    rw [hp]
    exact (ht x.price ⟨x, (hos x hxs).mp hx, hxs, rfl⟩).2

/-- Deleting an id from the abstract book. -/
theorem delete_entries (os : List Order) (id : OrderId) :
    PriceTime.delete (os.map Order.entry) id =
      (os.filter fun x => x.id != id).map Order.entry := by
  rw [PriceTime.delete, List.filter_map]
  rfl

/-- Reducing an order of the abstract book. -/
theorem reduce_entries {f : Order → Order} {n : Int}
    (hf : ∀ x ∈ os, x.id = o.id → (f x).entry = ⟨x.id, x.side.isBid, x.price, n⟩) :
    PriceTime.reduce (os.map Order.entry) o.id n = (amend os o.id f).map Order.entry := by
  rw [PriceTime.reduce, amend, List.map_map, List.map_map]
  apply List.map_congr_left
  intro x hx
  rw [Function.comp_apply, Function.comp_apply]
  by_cases hid : x.id = o.id
  · rw [if_pos hid, if_pos (show x.entry.id = o.id from hid), hf x hx hid]
    rfl
  · rw [if_neg hid, if_neg (show ¬ x.entry.id = o.id from hid)]

/-- An id of the view is found in the abstract book. -/
theorem find_entry (hv : v.Sound) (ho : o ∈ v.orders) :
    ((v.orders.map Order.entry).find? fun x => x.id = o.id) = some o.entry := by
  rw [List.find?_map]
  cases hf : v.orders.find? ((fun x : PriceTime.Entry => decide (x.id = o.id)) ∘ Order.entry) with
  | none => simpa using List.find?_eq_none.mp hf o ho
  | some x =>
    have hsome := List.find?_some hf
    have hid : x.id = o.id := of_decide_eq_true hsome
    rw [hv.eq_of_id (List.mem_of_find?_eq_some hf) ho hid]
    rfl

/-- A modify of an order of the view, on the abstract book. -/
theorem modify_found (hv : v.Sound) (ho : o ∈ v.orders) (price qty : Int) :
    PriceTime.modify (v.orders.map Order.entry) o.id price qty =
      if 0 < qty ∧ qty ≤ o.remaining then
        if price = o.price then PriceTime.reduce (v.orders.map Order.entry) o.id qty
        else PriceTime.delete (v.orders.map Order.entry) o.id ++
          [⟨o.id, o.side.isBid, price, qty⟩]
      else v.orders.map Order.entry := by
  rw [PriceTime.modify, find_entry hv ho]
  rfl

/-- Deleting the last order leaves the orders before it. -/
theorem filter_last (hv : v.Sound) (hos : v.orders = os ++ [i]) :
    ((os ++ [i]).filter fun x => x.id != i.id) = os := by
  have hnd := hv.distinct
  rw [hos, List.map_append, List.nodup_append] at hnd
  rw [List.filter_append, List.filter_cons_of_neg (by simp), List.filter_nil, List.append_nil,
    List.filter_eq_self]
  intro x hx
  simpa using hnd.2.2 _ (List.mem_map_of_mem hx) _ (by simp)

/-- With the incoming order last, a fill amends the others and the last one. -/
theorem fill_orders_eq (hv : v.Sound) (hos : v.orders = os ++ [i]) (hne : m.id ≠ i.id) :
    (v.fill m i q).orders = amend os m.id (·.fill q) ++ [i.fill q] := by
  have hold : ∀ x ∈ os, x.id ≠ i.id := by
    intro x hx
    have hnd := hv.distinct
    rw [hos, List.map_append, List.nodup_append] at hnd
    exact hnd.2.2 _ (List.mem_map_of_mem hx) _ (by simp)
  rw [orders_fill hne, hos, List.map_append]
  congr 1
  · exact List.map_congr_left fun x hx => by simp [hold x hx]
  · simp

/-- With the incoming order last, the other side consists of the orders before it. -/
theorem mem_before_iff (hos : v.orders = os ++ [i]) (hside : o.side.isBid = !i.side.isBid) :
    o ∈ os ↔ o ∈ v.orders := by
  rw [hos, List.mem_append, List.mem_singleton]
  refine (or_iff_left ?_).symm
  rintro rfl
  simp at hside

/-- The abstract best order of the other side, while the incoming order stands last. -/
theorem best_before (hv : v.Ordered) (hos : v.orders = os ++ [i]) :
    PriceTime.best (os.map Order.entry) (!i.side.isBid) =
      (v.level (!i.side.isBid) (v.best (!i.side.isBid))).head?.map Order.entry := by
  have hlast : ¬ i.At (!i.side.isBid) (v.best (!i.side.isBid)) := fun hat => by simpa using hat.1
  rw [best_entries (hv.anchored _) (hv.topped _) fun o ho => mem_before_iff hos ho, level, hos,
    List.filter_append, List.filter_cons_of_neg (by simpa using hlast), List.filter_nil,
    List.append_nil]

/-- The exits of the loop are the ends of the abstract sweep. -/
theorem Stops.sweep (h : v.Stops i) (hv : v.Ordered) (hty : i.type = .limit)
    (hos : v.orders = os ++ [i]) :
    PriceTime.sweep i.entry (os.map Order.entry) = ([], i.entry, os.map Order.entry) := by
  apply PriceTime.sweep_stop
  refine or_iff_not_imp_left.mpr fun hrem m hm => ?_
  rw [show i.entry.isBid = i.side.isBid from rfl, best_before hv hos, Option.map_eq_some_iff] at hm
  obtain ⟨o, ho, rfl⟩ := hm
  obtain ⟨hmem, hat⟩ := mem_level.mp (List.mem_of_head? ho)
  rcases h with hle | hinv | hinc | hnil
  · exact absurd hle hrem
  · exact absurd ⟨o, hmem, hinv ▸ hat⟩ hv.not_occupied
  · rw [← hat.2] at hinc
    exact (incompatible_iff (Or.inl hty) _).mp hinc
  · rw [hnil] at ho
    cases ho

/-- The trades of a matching loop are those of the abstract sweep. -/
theorem Matched.sweep (h : v.Matched i trades v' i') (hv : v.Ordered)
    (hlimit : v.All (·.type = .limit)) (hos : v.orders = os ++ [i]) :
    ∃ os', v'.orders = os' ++ [i'] ∧ PriceTime.sweep i.entry (os.map Order.entry) =
      (trades.map (tradeFill i.id), i'.entry, os'.map Order.entry) := by
  induction h generalizing os with
  | stop hstop => exact ⟨os, hos, hstop.sweep hv (hlimit _ (by simp [hos])) hos⟩
  | @step v v' v'' i i' m q trades htrade hrest ih =>
    have hmat := htrade.maker_at
    have hne := htrade.id_ne hv.sound
    have hbest := best_before hv hos
    rw [htrade.maker, Option.map_some] at hbest
    have hq : q = min i.remaining m.remaining := by
      rw [htrade.qty, MatchingEngine.makerAvailable, if_neg (by simp [hlimit m hmat.1])]
    have hcompat : ¬ Better i.side.isBid m.price i.price := by
      rw [hmat.2.2, ← incompatible_iff (Or.inl (hlimit i htrade.taker))]
      exact htrade.compatible
    have hunf := htrade.unfilled
    have hfill := fill_orders_eq (q := q) hv.sound hos hne
    by_cases hall : m.remaining ≤ i.remaining
    · have hdrop : (v.fill m i q).Dropped (m.fill q) v' := by
        rcases htrade.after_cases with ⟨-, hdrop⟩ | ⟨hlt, -⟩
        · exact hdrop
        · omega
      have hos' : v'.orders = (os.filter fun x => x.id != m.id) ++ [i.fill q] := by
        have hdel : ((amend os m.id (·.fill q)).filter fun x => x.id != m.id) =
          os.filter fun x => x.id != m.id := filter_ne_amend fun _ => rfl
        rw [hdrop.orders, hfill, List.filter_append, Order.id_fill, hdel,
          List.filter_cons_of_pos (by simpa using hne.symm), List.filter_nil]
      obtain ⟨os', hos'', hsweep⟩ :=
        ih (htrade.ordered hv) (htrade.all hv.sound (fun h => h) (fun h => h) hlimit) hos'
      refine ⟨os', hos'', ?_⟩
      have hi : (i.fill q).entry =
          { i.entry with remaining := i.entry.remaining - m.entry.remaining } := by
        simp [Order.entry, hq, min_eq_right hall]
      rw [PriceTime.sweep_exhaust hbest hunf hcompat hall, delete_entries, ← hi, Order.entry_id,
        hsweep]
      simp [tradeFill, Order.entry, hq, min_eq_right hall]
    · have hv' : v' = v.fill m i q := by
        rcases htrade.after_cases with ⟨hle, -⟩ | ⟨-, -, hv'⟩
        · omega
        · exact hv'
      have hqi : q = i.remaining := by omega
      cases hrest with
      | step htrade' _ =>
        have := htrade'.unfilled
        rw [Order.remaining_fill] at this
        omega
      | stop _ =>
        refine ⟨_, by rw [hv', hfill], ?_⟩
        have hreduce : PriceTime.reduce (os.map Order.entry) m.entry.id
            (m.entry.remaining - i.entry.remaining) =
            (amend os m.id (·.fill q)).map Order.entry := by
          refine reduce_entries fun x hx hid => ?_
          rw [hv.sound.eq_of_id (by simp [hos, hx]) hmat.1 hid]
          simp [Order.entry, hqi]
        rw [PriceTime.sweep_fill hbest hunf hcompat (not_le.mp hall), hreduce]
        simp [tradeFill, Order.entry, hqi]

/-- A regular view of limit orders with exact depth counters. -/
structure LimitBook (v : BookView) : Prop extends v.Regular where
  limit : v.All (·.type = .limit)
  balanced : ∀ s t, v.BalancedAt Order.remaining s t

/-- The empty book is a limit book. -/
theorem limitBook_empty : LimitBook ⟨[], fun _ _ => 0, fun _ => invalidPrice⟩ :=
  ⟨regular_empty, by simp [All], fun _ _ => rfl⟩

/-- Limit orders, cancels and modifies lead from such a view to such a view. -/
theorem Effect.limitBook (h : v.Effect call trades v') (hlimits : call.Limits)
    (hfits : v.Enters Fit call) (hv : v.LimitBook) : v'.LimitBook := by
  have hregular := h.regular_of_enters hlimits.rests.noMarket.not_market hfits hv.toRegular
  have hkept := h.limit_balanced hv.sound (fun n hn => ?_) hv.limit hv.balanced
  · exact ⟨hregular, hkept.1, hkept.2⟩
  · subst hn
    exact hlimits

/-- A limit order is accepted by the engine exactly when the abstract book accepts it. -/
theorem accepts_iff {n : NewOrder} (hty : n.type = .limit) :
    v.Accepts n ↔ 0 < n.quantity ∧ 0 < n.price ∧
      (∀ x ∈ v.orders.map Order.entry, x.id ≠ n.id) ∧
      (v.orders.map Order.entry).length < maxOrders := by
  rw [List.length_map]
  simp only [List.mem_map, forall_exists_index, and_imp, forall_apply_eq_imp_iff₂]
  constructor
  · intro h
    exact ⟨h.valid.quantity_pos, h.valid.price_pos (Or.inl hty), h.fresh, h.room⟩
  · rintro ⟨hq, hp, hfresh, hroom⟩
    exact ⟨⟨not_le.mpr hq, fun h => not_le.mpr hp h.2, by simp [hty]⟩, hfresh, hroom⟩

private theorem entry_order {n : NewOrder} (hty : n.type = .limit) :
    n.order.entry = ⟨n.id, n.side.isBid, n.price, n.quantity⟩ := by
  simp [Order.entry, n.price_order (by simp [hty])]

/-- Every call moves the abstract book as it moves the view. -/
theorem Effect.step (h : v.Effect call trades v') (hlimits : call.Limits)
    (hfits : v.Enters Fit call) (hv : v.LimitBook) :
    PriceTime.step (v.orders.map Order.entry) call =
      (trades.map (tradeFill call.id), v'.orders.map Order.entry) := by
  cases h with
  | refused hno =>
    exact if_neg fun hok => hno ((accepts_iff hlimits).mpr hok)
  | @rested n hacc hty hcross =>
    have htype : n.type = .limit := hlimits
    have hlimit : n.order.type = .limit := by simp [n.type_order, htype]
    have hstops : (v.enter n.order).Stops n.order := by
      have hbest := best_enter_other v n.order
      rw [n.side_order] at hbest
      rw [Stops, n.side_order, hbest]
      by_cases hinv : v.best (!n.side.isBid) = invalidPrice
      · exact Or.inr (Or.inl hinv)
      · refine Or.inr (Or.inr (Or.inl ((incompatible_iff (Or.inl hlimit) _).mpr ?_)))
        rw [n.side_order, n.price_order hty]
        by_contra hb
        have hside := (hfits hacc).1
        rw [n.side_order] at hside
        exact hcross ⟨hside, hinv, hb⟩
    rw [PriceTime.step, PriceTime.newLimit, if_pos ((accepts_iff htype).mp hacc),
      ← entry_order htype, hstops.sweep (hv.enter hacc (hfits hacc)) hlimit rfl]
    simp [hacc.valid.quantity_pos, enter, place]
  | @matched n _ w _ i hacc _ hmatched hsettled =>
    have htype : n.type = .limit := hlimits
    have hlimit : (v.enter n.order).All (·.type = .limit) := by
      intro o ho
      rcases List.mem_append.mp ho with ho | ho
      · exact hv.limit o ho
      · simp [List.mem_singleton.mp ho, n.type_order, htype]
    obtain ⟨os, hos, hsweep⟩ := hmatched.sweep (hv.enter hacc (hfits hacc)) hlimit rfl
    rw [PriceTime.step, PriceTime.newLimit, if_pos ((accepts_iff htype).mp hacc),
      ← entry_order htype, hsweep, n.id_order]
    refine congrArg (Prod.mk _) ?_
    by_cases hrem : 0 < i.remaining
    · rw [Settled, if_neg (by simp [htype, hrem])] at hsettled
      rw [if_pos (show 0 < i.entry.remaining from hrem), hsettled, hos, List.map_append]
      rfl
    · rw [Settled, if_pos (by simp [htype, hrem])] at hsettled
      have hwsound := (hmatched.sound (hv.sound.enter hacc) (by simp [enter, place])).1
      rw [if_neg (show ¬ 0 < i.entry.remaining from hrem), hsettled.orders, hos,
        filter_last hwsound hos]
  | @cancelled o _ ho hdrop =>
    rw [PriceTime.step, delete_entries, hdrop.orders]
    rfl
  | notFound hno =>
    rw [PriceTime.step, delete_entries, List.filter_eq_self.mpr fun x hx => by simpa using hno x hx]
    rfl
  | @modified o price qty _ ho hpos hle hmod =>
    rw [PriceTime.step, modify_found hv.sound ho, if_pos ⟨hpos, hle⟩]
    cases hmod with
    | inPlace hprice =>
      rw [if_pos hprice, reduce_entries (f := (·.shrink qty))]
      · rfl
      · exact fun x _ _ => by simp [Order.entry]
    | moved hne hdrop =>
      rw [if_neg hne, delete_entries, ← hdrop.orders]
      simp [place, Order.entry]
  | @unmodified id price qty hno =>
    rw [PriceTime.step]
    refine congrArg (Prod.mk _) ?_
    by_cases hid : ∃ o ∈ v.orders, o.id = id
    · obtain ⟨o, ho, rfl⟩ := hid
      rw [modify_found hv.sound ho, if_neg (hno o ho rfl)]
    · have hnone : ((v.orders.map Order.entry).find? fun x => x.id = id) = none := by
        rw [List.find?_eq_none]
        simp only [List.mem_map, forall_exists_index, and_imp, forall_apply_eq_imp_iff₂]
        intro o ho hfound
        exact hid ⟨o, ho, of_decide_eq_true hfound⟩
      rw [PriceTime.modify, hnone]

end BookView

/-- The engine's log and book are those of an abstract run: the same fills, and at every
level the same queue and count, with the cached best price that of the abstract best order. -/
structure MatchingEngine.Tracks (e : MatchingEngine)
    (abstract : List PriceTime.Fill × PriceTime.Book) : Prop where
  fills : e.fills.map FillMsg.fill = abstract.1
  queue : ∀ s t level, (e.book.levels s).lookup t = some level →
    ∃ ps, level.Holds e.book.pool ps ∧
      (ps.map fun p => ((e.book.pool.get p).id, (e.book.pool.get p).remaining)) =
        (PriceTime.level abstract.2 s t).map fun x => (x.id, x.remaining)
  count : ∀ s t level, (e.book.levels s).lookup t = some level →
    level.orderCount = (PriceTime.level abstract.2 s t).length
  levels : ∀ s t, ((e.book.levels s).lookup t).isSome = true ↔
    PriceTime.level abstract.2 s t ≠ []
  best : ∀ s, e.book.best s = ((PriceTime.best abstract.2 s).map (·.price)).getD invalidPrice

/-- The engine's log and book are those of an abstract run, the depth of every level included. -/
structure MatchingEngine.Simulates (e : MatchingEngine)
    (abstract : List PriceTime.Fill × PriceTime.Book) : Prop extends e.Tracks abstract where
  total : ∀ s t level, (e.book.levels s).lookup t = some level →
    level.totalQuantity = ((PriceTime.level abstract.2 s t).map (·.remaining)).sum

/-- The abstract level, read off the view. -/
theorem BookView.level_entries (v : BookView) (s : Bool) (t : Int) :
    PriceTime.level (v.orders.map Order.entry) s t = (v.level s t).map Order.entry := by
  rw [PriceTime.level, List.filter_map]
  rfl

/-- A book that shows a view of limit orders agrees with the view's entries. -/
theorem OrderBook.Shows.tracks {e : MatchingEngine} {v : BookView} (h : e.book.Shows v)
    (hv : v.LimitBook) :
    e.Tracks (e.fills.map FillMsg.fill, v.orders.map Order.entry) := by
  have hbest := h.best
  obtain ⟨ps, hrep, rfl, -⟩ := h
  have hslot : ∀ {s t level}, (e.book.levels s).lookup t = some level →
      level.Holds e.book.pool (queueAt e.book.pool ps s t) := by
    intro s t level hl
    have hslot := hrep.slots s t
    rw [hl] at hslot
    exact hslot.1
  refine ⟨rfl, ?_, ?_, ?_, ?_⟩
  · intro s t level hl
    refine ⟨_, hslot hl, ?_⟩
    rw [BookView.level_entries, level_view, List.map_map, List.map_map]
    rfl
  · intro s t level hl
    rw [(hslot hl).count, BookView.level_entries, level_view, List.length_map, List.length_map]
  · intro s t
    rw [hrep.lookup_isSome_iff, BookView.level_entries, ne_eq, List.map_eq_nil_iff,
      ← BookView.occupied_iff, ← BookView.level_ne_nil_iff]
  · intro s
    rw [hbest, BookView.best_entries (hv.anchored s) (hv.topped s) fun _ _ => Iff.rfl]
    change _ = ((((e.book.view ps).level s ((e.book.view ps).best s)).head?.map _).map _).getD _
    cases hl : (e.book.view ps).level s ((e.book.view ps).best s) with
    | nil =>
      have hinv := (hv.anchored s).resolve_right fun hocc => BookView.level_ne_nil_iff.mpr hocc hl
      exact hinv
    | cons o rest =>
      have hat := (BookView.mem_level.mp (hl ▸ List.mem_cons_self : o ∈ _)).2
      exact hat.2.symm

/-- The depth of the levels agrees too exactly when no level holds more than a counter does. -/
theorem OrderBook.Shows.simulates_iff {e : MatchingEngine} {v : BookView} (h : e.book.Shows v)
    (hv : v.LimitBook) :
    e.Simulates (e.fills.map FillMsg.fill, v.orders.map Order.entry) ↔
      ∀ s t, e.book.restingAt s t < 2 ^ 31 := by
  have hsum : ∀ s t, ((PriceTime.level (v.orders.map Order.entry) s t).map (·.remaining)).sum =
      e.book.restingAt s t := by
    intro s t
    rw [BookView.level_entries, List.map_map, h.restingAt]
    rfl
  have htotal : ∀ {s t level}, (e.book.levels s).lookup t = some level →
      level.totalQuantity = toInt32 (e.book.restingAt s t) := by
    intro s t level hl
    have hlevel := h.levelOf s t
    rw [OrderBook.levelOf, hl, Option.map_some] at hlevel
    split at hlevel
    · cases hlevel
    · rw [(Prod.mk.inj (Option.some.inj hlevel)).1, hv.balanced s t, h.restingAt]
  constructor
  · intro hsim s t
    cases hl : (e.book.levels s).lookup t with
    | none =>
      rw [OrderBook.restingAt, OrderBook.queueOf, hl]
      norm_num
    | some level =>
      have hexact := hsim.total s t level hl
      rw [hsum, htotal hl] at hexact
      rw [← hexact]
      exact toInt32_lt _
  · intro hok
    refine ⟨h.tracks hv, fun s t level hl => ?_⟩
    have hnonneg : 0 ≤ e.book.restingAt s t := by
      rw [h.restingAt]
      exact h.sound.sumOver_nonneg _
    rw [htotal hl, hsum, toInt32_eq_self (by omega) (hok s t)]

/-- The messages of trades carry the fills of the trades. -/
theorem fill_tradeMsgs (fees : FeeSchedule) (takerId : OrderId) (trades : List (Order × Int)) :
    (tradeMsgs fees takerId trades).map FillMsg.fill = trades.map (tradeFill takerId) := by
  rw [tradeMsgs, List.map_map]
  rfl

/-- The simulation, from any state that already agrees with an abstract book. -/
theorem OrderBook.Shows.run_tracks {e : MatchingEngine} {v : BookView} (h : e.book.Shows v)
    (hv : v.LimitBook) {calls : List (HashOrder × Call)} (hcalls : ∀ c ∈ calls, c.2.Limits)
    (hnamed : e.RunMeets AdmitsNamed calls) :
    ∃ e' v', e.run calls = some e' ∧ e'.book.Shows v' ∧ v'.LimitBook ∧
      e'.fills.map FillMsg.fill = e.fills.map FillMsg.fill ++
        (PriceTime.run (v.orders.map Order.entry) (calls.map (·.2))).1 ∧
      v'.orders.map Order.entry =
        (PriceTime.run (v.orders.map Order.entry) (calls.map (·.2))).2 := by
  induction calls generalizing e v with
  | nil => exact ⟨e, v, rfl, h, hv, (List.append_nil _).symm, rfl⟩
  | cons c calls ih =>
    obtain ⟨ord, call⟩ := c
    have hlimits : call.Limits := hcalls _ List.mem_cons_self
    have hfits := h.enters_of_rests hv.sides hlimits.rests hnamed.1
    obtain ⟨e₁, trades, v₁, hperform, hshows, heffect, -, hfills⟩ :=
      MatchingEngine.perform_spec h ord call
    obtain ⟨e', v', hrun, hshows', hv', hfills', hentries⟩ :=
      ih hshows (heffect.limitBook hlimits hfits hv)
        (fun c hc => hcalls c (List.mem_cons_of_mem _ hc)) (hnamed.2 e₁ hperform)
    refine ⟨e', v', by rw [MatchingEngine.run, hperform]; exact hrun, hshows', hv', ?_, ?_⟩
    · rw [hfills', hfills, List.map_append, fill_tradeMsgs, List.append_assoc, List.map_cons,
        PriceTime.run, heffect.step hlimits hfits hv]
    · rw [hentries, List.map_cons, PriceTime.run, heffect.step hlimits hfits hv]

end LiquidityArena

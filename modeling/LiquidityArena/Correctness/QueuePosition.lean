import LiquidityArena.View.Shares

/-!
# What the position in the queue says about fills

`queue_volume_ahead` walks the queue of a level and adds up what remains of the orders in
front. For an order at the best price this is all that an incoming order has to take before
it comes to the order, so the volume predicts the fills. The walk adds in 32 bits, though, and
the matching loop looks for orders at the cached best price: when more than that is ahead, or
the cached price is stale, the prediction holds only if the wrapped volume says that the
incoming order does not come that far.
-/

namespace LiquidityArena

open MatchingEngine OrderBook BookView

/-- What the fills give in total to the order of an id as maker. -/
def filledBy (fills : List FillMsg) (id : OrderId) : Int :=
  ((fills.filter fun fill => fill.makerId = id).map FillMsg.quantity).sum

private theorem filledBy_tradeMsgs (fees : FeeSchedule) (takerId : OrderId)
    (trades : List (Order × Int))
    (id : OrderId) : filledBy (tradeMsgs fees takerId trades) id = takenFrom trades id := by
  rw [filledBy, tradeMsgs, List.filter_map, List.map_map]
  rfl

namespace BookView

variable {v v' : BookView} {i i' m o : Order} {q t : Int} {front : List Order}
  {trades : List (Order × Int)}

/-- Orders only leave the book in a trade. -/
theorem Trade.occupied (h : v.Trade i m q v') {s : Bool} (hocc : v'.Occupied s t) :
    v.Occupied s t := by
  rcases h.after_cases with ⟨-, hdrop⟩ | ⟨-, -, rfl⟩
  · exact occupied_fill.mp (hdrop.occupied hocc)
  · exact occupied_fill.mp hocc

private theorem Matched.occupied (h : v.Matched i trades v' i') {s : Bool}
    (hocc : v'.Occupied s t) :
    v.Occupied s t := by
  induction h with
  | stop _ => exact hocc
  | step htrade _ ih => exact htrade.occupied (ih hocc)

/-- The best price stays while there are orders at it. -/
theorem Trade.best_eq (h : v.Trade i m q v')
    (hocc : v'.Occupied (!i.side.isBid) (v.best (!i.side.isBid))) :
    v'.best (!i.side.isBid) = v.best (!i.side.isBid) := by
  rcases h.after_cases with ⟨-, hdrop⟩ | ⟨-, -, rfl⟩
  · have hbest := hdrop.best (!i.side.isBid)
    rw [if_neg] at hbest
    · exact hbest
    · rintro ⟨-, -, hnil⟩
      rw [Order.price_fill, h.maker_at.2.2] at hnil
      exact level_ne_nil_iff.mpr hocc hnil
  · rfl

private theorem Matched.best_eq (h : v.Matched i trades v' i')
    (hocc : v'.Occupied (!i.side.isBid) (v.best (!i.side.isBid))) :
    v'.best (!i.side.isBid) = v.best (!i.side.isBid) := by
  induction h with
  | stop _ => rfl
  | step htrade hrest ih =>
    have hbest := htrade.best_eq (hrest.occupied hocc)
    rw [Order.side_fill, hbest] at ih
    exact ih hocc

/-- While an order waits at the best price, an order at this price goes on to be matched. -/
theorem Stops.exhausted_at_best (h : v.Stops i) (ht : v.Topped !i.side.isBid)
    (hocc : v.Occupied (!i.side.isBid) i.price) (hbest : v.best (!i.side.isBid) = i.price) :
    i.remaining ≤ 0 := by
  rw [Stops, hbest] at h
  rcases h with hle | hinv | hinc | hnil
  · exact hle
  · exact absurd (hbest.trans hinv) (ht _ hocc).1
  · simp [Incompatible] at hinc
  · exact absurd hnil (level_ne_nil_iff.mpr hocc)

/-- What an order at the best price of the other side takes from an order that waits there. -/
theorem Matched.share_at_best (h : v.Matched i trades v' i') (hv : v.Opposed !i.side.isBid)
    (hi : i ∈ v.orders) (hbest : v.best (!i.side.isBid) = i.price)
    (ho : v.Queued (!i.side.isBid) i.price front o) (hpos : 0 < o.remaining) :
    takenFrom trades o.id = o.share (i.remaining - (front.map Order.remaining).sum) := by
  obtain ⟨htaken, -, hstays⟩ := h.share hv ho hpos rfl
  have hwait : v.waiting (!i.side.isBid) i.price front = (front.map Order.remaining).sum := by
    rw [waiting, ← hbest, hv.topped.volumeBefore_best, zero_add]
  obtain ⟨hsound, hi'⟩ := h.sound hv.sound hi
  have hnonneg := hsound.nonneg i' hi'
  rw [hwait] at htaken hstays
  rw [htaken]
  by_cases hlt : o.share (i.remaining - i'.remaining - (front.map Order.remaining).sum) <
      o.remaining
  · obtain ⟨front', ho'⟩ := hstays hlt
    have hocc : v'.Occupied (!i.side.isBid) i.price := ⟨_, ho'.mem⟩
    have hbest' := h.best_eq (hbest ▸ hocc)
    have hrest : i'.remaining ≤ 0 := by
      obtain ⟨filled, rfl⟩ := h.taker
      exact h.stops.exhausted_at_best (h.opposed hv).topped hocc (hbest'.trans hbest)
    rw [show i'.remaining = 0 by omega, sub_zero]
  · rw [Order.share] at hlt ⊢
    rw [Order.share]
    omega

end BookView

/-- The order in the slot is known by its id and rests in this level, and no level of its side has
a better price. -/
structure OrderBook.AtBest (b : OrderBook) (p : Ptr) (level : PriceLevel) : Prop where
  known : b.getOrder (b.pool.get p).id = some p
  level : (b.levels (b.pool.get p).side.isBid).lookup (b.pool.get p).price = some level
  best : ∀ t ∈ (b.levels (b.pool.get p).side.isBid).keys,
    ¬ Better (b.pool.get p).side.isBid t (b.pool.get p).price

/-- A limit order on the other side of a resting order, at its price. -/
structure NewOrder.Hits (n : NewOrder) (o : Order) : Prop where
  limit : n.type = .limit
  side : n.side = Side.ofBid (!o.side.isBid)
  price : n.price = o.price

namespace OrderBook

variable {b : OrderBook} {v : BookView} {p : Ptr} {level : PriceLevel}

/-- The order in the slot waits behind a front, whose volume the walk adds up in 32 bits. -/
theorem AtBest.queued (h : b.AtBest p level) (hshows : b.Shows v) :
    ∃ front, v.Queued (b.pool.get p).side.isBid (b.pool.get p).price front (b.pool.get p).unlink ∧
      b.queuedAhead (b.pool.get p) = (front.map Order.remaining).sum ∧
      level.queueVolumeAhead b.pool p = toInt32 (front.map Order.remaining).sum := by
  have hscan := @Shows.queuedAhead b v hshows
  obtain ⟨ps, hrep, rfl, -⟩ := hshows
  have hp := ((hrep.map _ p).mp h.known).1
  obtain ⟨qs, rs, hqueue⟩ := List.append_of_mem (mem_queueAt.mpr ⟨hp, rfl, rfl⟩)
  have hholds := hrep.slots (b.pool.get p).side.isBid (b.pool.get p).price
  rw [h.level, hqueue] at hholds
  have hqueued : (b.view ps).Queued (b.pool.get p).side.isBid (b.pool.get p).price
      (qs.map fun x => (b.pool.get x).unlink) (b.pool.get p).unlink := by
    refine ⟨rs.map fun x => (b.pool.get x).unlink, ?_⟩
    rw [level_view, hqueue, List.map_append, List.map_cons]
  have hsum := hscan hqueued
  refine ⟨_, hqueued, hsum, ?_⟩
  rw [hholds.1.queueVolumeAhead_eq, List.map_map]
  rfl

/-- What an incoming limit order takes from an order at the best price, if this is the cached one. -/
theorem AtBest.takenFrom_eq (h : b.AtBest p level) (hshows : b.Shows v) (hv : v.Standing)
    (hcached : b.best (b.pool.get p).side.isBid = (b.pool.get p).price)
    {n : NewOrder} (hacc : v.Accepts n) (hhits : n.Hits (b.pool.get p)) {v' : BookView}
    {trades : List (Order × Int)} (heffect : v.Effect (.newOrder n) trades v') :
    takenFrom trades (b.pool.get p).id =
      (b.pool.get p).share (n.quantity - b.queuedAhead (b.pool.get p)) := by
  obtain ⟨front, hqueued, hahead, -⟩ := h.queued hshows
  have hty : n.type ≠ .market := by simp [hhits.limit]
  have hother : (b.pool.get p).side.isBid = !n.order.side.isBid := by
    rw [n.side_order, hhits.side, Side.isBid_ofBid, Bool.not_not]
  have hprice : (b.pool.get p).price = n.order.price := by rw [n.price_order hty, hhits.price]
  have hbest : v.best (!n.order.side.isBid) = n.order.price := by
    rw [← hother, ← hprice, ← hshows.best, hcached]
  rw [hother, hprice] at hqueued
  have hopposed := hv.opposed (!n.order.side.isBid)
  have hocc : v.Occupied (!n.order.side.isBid) n.order.price := ⟨_, hqueued.mem⟩
  cases heffect with
  | refused hno => exact absurd hacc hno
  | rested _ _ hcross =>
    refine absurd ⟨?_, ?_, ?_⟩ hcross
    · rw [hhits.side]
      cases (b.pool.get p).side.isBid <;> simp [Side.ofBid, Side.Named]
    · rw [← n.side_order]
      exact (hopposed.topped _ hocc).1
    · rw [← n.side_order, hbest, n.price_order hty]
      exact better_irrefl _ _
  | @matched _ _ w _ i _ _ hmatched _ =>
    have hpos := hv.live _ hqueued.mem.1
    have htaken := hmatched.share_at_best (hopposed.enter_other hacc) (by simp [enter, place])
      (by rw [best_enter_other, hbest]) (queued_enter_other.mpr hqueued) hpos
    rw [n.remaining_order, ← hahead] at htaken
    exact htaken

/-- Where the cached best price is stale, an incoming limit order finds nobody to trade with. -/
theorem AtBest.trades_eq_nil (h : b.AtBest p level) (hshows : b.Shows v) (hv : v.Standing)
    (hstale : b.best (b.pool.get p).side.isBid ≠ (b.pool.get p).price)
    {n : NewOrder} (hhits : n.Hits (b.pool.get p)) {v' : BookView}
    {trades : List (Order × Int)} (heffect : v.Effect (.newOrder n) trades v') : trades = [] := by
  obtain ⟨front, hqueued, -, -⟩ := h.queued hshows
  have hother : (!n.order.side.isBid) = (b.pool.get p).side.isBid := by
    rw [n.side_order, hhits.side, Side.isBid_ofBid, Bool.not_not]
  cases heffect with
  | refused _ => rfl
  | rested _ _ _ => rfl
  | matched _ _ hmatched _ =>
    cases hmatched with
    | stop _ => rfl
    | step htrade _ =>
      -- A maker would stand at the cached best price, which no order has.
      have hmaker := level_ne_nil_iff.mp (List.ne_nil_of_mem (List.mem_of_head? htrade.maker))
      have hbest := best_enter_other v n.order
      rw [hbest, ← level_ne_nil_iff, level_enter_other, hother, ← hshows.best] at hmaker
      have htop := (hv.opposed _).topped _ ⟨_, hqueued.mem⟩
      rw [← hshows.best] at htop
      have hnot := h.best _ (hshows.mem_keys_iff.mpr hmaker)
      exact absurd (eq_of_not_better hnot htop.2) hstale

end OrderBook

/-- A quantity within 32 bits is predicted to reach an order with the wrapped volume as it is with
the exact one, unless it passes the wrapped volume and not the exact one. -/
theorem Order.share_toInt32_iff {o : Order} (hpos : 0 < o.remaining) {ahead qty : Int}
    (hahead : 0 ≤ ahead) (hqty : qty < 2 ^ 31) :
    o.share (qty - ahead) = o.share (qty - toInt32 ahead) ↔
      ahead < 2 ^ 31 ∨ qty ≤ toInt32 ahead := by
  by_cases hlt : ahead < 2 ^ 31
  · rw [toInt32_eq_self (by omega) hlt]
    exact iff_of_true rfl (Or.inl hlt)
  · rw [or_iff_right hlt, share, share]
    omega

/-- Nothing is predicted exactly when the wrapped volume is not passed. -/
theorem Order.share_eq_zero_iff {o : Order} (hpos : 0 < o.remaining) (x : Int) :
    0 = o.share x ↔ x ≤ 0 := by
  rw [share]
  omega

/-- After every run of limit and iceberg orders, cancels and modifies, `queue_volume_ahead` of an
order at the best price predicts what an incoming limit order at this price takes from it exactly
when this is the cached best price and the volume ahead fits in 32 bits, or the wrapped volume is
not passed. -/
theorem run_queueVolumeAhead_predicts (fees : FeeSchedule) (calls : List (HashOrder × Call))
    (hcalls : ∀ c ∈ calls, c.2.Rests) :
    ∃ e, (MatchingEngine.init fees).run calls = some e ∧
      ∀ p level ord (n : NewOrder), e.book.AtBest p level → e.book.Admits n →
        n.Hits (e.book.pool.get p) → n.quantity < 2 ^ 31 →
        ∃ e' fills, e.perform ord (.newOrder n) = some e' ∧ e'.fills = e.fills ++ fills ∧
          (filledBy fills (e.book.pool.get p).id =
              max 0 (min (e.book.pool.get p).remaining
                (n.quantity - level.queueVolumeAhead e.book.pool p)) ↔
            e.book.best (e.book.pool.get p).side.isBid = (e.book.pool.get p).price ∧
                e.book.queuedAhead (e.book.pool.get p) < 2 ^ 31 ∨
              n.quantity ≤ toInt32 (e.book.queuedAhead (e.book.pool.get p))) := by
  obtain ⟨e, v, hrun, hshows, hv⟩ := MatchingEngine.run_rule BookView.Standing (fun _ => Call.Rests)
    (fun _ hv hcall heffect _ => heffect.standing hcall hv)
    (e := MatchingEngine.init fees) OrderBook.shows_init BookView.standing_empty
    (MatchingEngine.runMeets_of_forall hcalls _)
  refine ⟨e, hrun, fun p level ord n hp hadmits hhits hqty => ?_⟩
  obtain ⟨e', trades, v', hcall, -, heffect, -, hfills⟩ :=
    MatchingEngine.perform_spec hshows ord (.newOrder n)
  refine ⟨e', _, hcall, hfills, ?_⟩
  obtain ⟨front, hqueued, hahead, hwalk⟩ := hp.queued hshows
  have hpos := hv.live _ hqueued.mem.1
  have hnonneg : 0 ≤ e.book.queuedAhead (e.book.pool.get p) := by
    rw [hahead]
    exact hqueued.front_nonneg hshows.sound
  rw [filledBy_tradeMsgs, hwalk, ← hahead]
  by_cases hcached : e.book.best (e.book.pool.get p).side.isBid = (e.book.pool.get p).price
  · rw [hp.takenFrom_eq hshows hv hcached (hshows.admits_iff.mp hadmits) hhits heffect,
      and_iff_right hcached]
    exact Order.share_toInt32_iff hpos hnonneg hqty
  · rw [hp.trades_eq_nil hshows hv hcached hhits heffect, or_iff_right fun hboth => hcached hboth.1]
    exact (Order.share_eq_zero_iff hpos _).trans sub_nonpos

/-- Two asks at one price, of which the first has been reduced to 3: a bid for 4 takes 1 of the
second, as its position predicts. -/
theorem run_queueVolumeAhead_predicts_two_asks :
    ∃ e e' fills p level, (MatchingEngine.init {}).run
        [(HashOrder.recent, .newOrder ⟨1, .ask, .limit, 100, 5, 0, 0⟩),
          (HashOrder.recent, .newOrder ⟨2, .ask, .limit, 100, 7, 0, 0⟩),
          (HashOrder.recent, .modify 1 100 3)] = some e ∧
      e.book.getOrder 2 = some p ∧ e.book.AtBest p level ∧ level.queueVolumeAhead e.book.pool p = 3 ∧
      e.perform HashOrder.recent (.newOrder ⟨3, .bid, .limit, 100, 4, 0, 0⟩) = some e' ∧
      e'.fills = e.fills ++ fills ∧ filledBy fills (e.book.pool.get p).id =
        max 0 (min (e.book.pool.get p).remaining (4 - level.queueVolumeAhead e.book.pool p)) := by
  obtain ⟨e, hrun, hpredicts⟩ := run_queueVolumeAhead_predicts {}
    [(HashOrder.recent, .newOrder ⟨1, .ask, .limit, 100, 5, 0, 0⟩),
      (HashOrder.recent, .newOrder ⟨2, .ask, .limit, 100, 7, 0, 0⟩),
      (HashOrder.recent, .modify 1 100 3)] (by decide)
  obtain rfl := Option.some.inj hrun
  obtain ⟨e', fills, hcall, hfills, hiff⟩ := hpredicts 1 _ HashOrder.recent
    ⟨3, .bid, .limit, 100, 4, 0, 0⟩ ⟨rfl, rfl, by decide⟩ (by decide) ⟨rfl, rfl, rfl⟩ (by decide)
  exact ⟨_, e', fills, 1, _, rfl, rfl, ⟨rfl, rfl, by decide⟩, rfl, hcall, hfills,
    hiff.mpr (Or.inl ⟨by decide, by decide⟩)⟩

/-- Two asks of 2147483647 are ahead of an ask of 5, and the walk returns -2. A bid for 2147483647
takes nothing from it, and 5 are predicted. -/
theorem wrapped_volume_mispredicts :
    ∃ e e' p level, (MatchingEngine.init {}).run
        [(HashOrder.recent, .newOrder ⟨1, .ask, .limit, 100, 2147483647, 0, 0⟩),
          (HashOrder.recent, .newOrder ⟨2, .ask, .limit, 100, 2147483647, 0, 0⟩),
          (HashOrder.recent, .newOrder ⟨3, .ask, .limit, 100, 5, 0, 0⟩)] = some e ∧
      e.book.getOrder 3 = some p ∧ e.book.AtBest p level ∧
      e.book.Admits ⟨4, .bid, .limit, 100, 2147483647, 0, 0⟩ ∧
      level.queueVolumeAhead e.book.pool p = -2 ∧
      e.perform HashOrder.recent (.newOrder ⟨4, .bid, .limit, 100, 2147483647, 0, 0⟩) = some e' ∧
      filledBy (e'.fills.drop e.fills.length) 3 = 0 ∧
      max 0 (min (e.book.pool.get p).remaining (2147483647 - level.queueVolumeAhead e.book.pool p)) =
        5 :=
  ⟨_, _, _, _, rfl, rfl, ⟨rfl, rfl, by decide⟩, by decide, by decide, rfl, by decide, by decide⟩

end LiquidityArena

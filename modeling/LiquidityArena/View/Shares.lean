import LiquidityArena.View.Observe

/-!
# What an incoming order takes from each maker

The loop executes some total against the other side. An order that waits there gets the
part of this total that reaches it: nothing until the orders ahead of it are filled, and
never more than remains of it. The order is gone when all of it is taken, and otherwise
it stays in its queue with the rest.
-/

namespace LiquidityArena

open MatchingEngine OrderBook

namespace Order

/-- The part of a quantity that the order can take, when the quantity has come to its turn. -/
def share (o : Order) (reached : Int) : Int := max 0 (min o.remaining reached)

/-- Filling nothing changes nothing. -/
theorem fill_zero (o : Order) : o.fill 0 = o := by
  simp [fill]

/-- Filling twice is filling the sum. -/
theorem fill_fill (o : Order) (p q : Int) : (o.fill p).fill q = o.fill (p + q) := by
  simp only [fill, add_assoc]

end Order

/-- What the trades execute with the order of an id. -/
def takenFrom (trades : List (Order × Int)) (id : OrderId) : Int :=
  ((trades.filter fun trade => trade.1.id = id).map Prod.snd).sum

/-- What some trades take from an order, the first one and the rest. -/
theorem takenFrom_cons (trade : Order × Int) (trades : List (Order × Int)) (id : OrderId) :
    takenFrom (trade :: trades) id =
      (if trade.1.id = id then trade.2 else 0) + takenFrom trades id := by
  rw [takenFrom]
  by_cases hid : trade.1.id = id
  · rw [if_pos hid, List.filter_cons_of_pos (by simpa using hid), List.map_cons, List.sum_cons]
    rfl
  · rw [if_neg hid, List.filter_cons_of_neg (by simpa using hid), zero_add]
    rfl

namespace BookView

variable {v v' : BookView} {i i' m o : Order} {q t : Int} {front : List Order}
  {trades : List (Order × Int)} {call : Call}

/-- Nothing is taken from an order of the same side or with a price beyond the limit. -/
theorem Matched.takenFrom_of_apart (h : v.Matched i trades v' i') (hv : v.Sound) {id : OrderId}
    (hno : v.All fun x => x.id = id → x.side.isBid = i.side.isBid ∨ Incompatible i x.price) :
    takenFrom trades id = 0 := by
  induction h with
  | stop _ => rfl
  | @step v v' v'' i i' m q trades htrade _ ih =>
    have hne : m.id ≠ id := by
      intro hid
      rcases hno m htrade.maker_at.1 hid with hside | hbeyond
      · simp [htrade.maker_at.2.1] at hside
      · rw [htrade.maker_at.2.2] at hbeyond
        exact htrade.compatible hbeyond
    rw [takenFrom_cons, if_neg hne, zero_add]
    exact ih (htrade.sound hv) (htrade.all hv (fun hx => hx) (fun hx => hx) hno)

/-- Nothing is taken from an order that is not there. -/
theorem Matched.takenFrom_of_absent (h : v.Matched i trades v' i') (hv : v.Sound) {id : OrderId}
    (hno : v.All (·.id ≠ id)) : takenFrom trades id = 0 :=
  h.takenFrom_of_apart hv fun x hx hid => absurd hid (hno x hx)

/-- The loop never adds to what remains of the incoming order. -/
theorem Matched.remaining_le (h : v.Matched i trades v' i') (hv : v.Sound) :
    i'.remaining ≤ i.remaining := by
  induction h with
  | stop _ => exact le_rfl
  | step htrade _ ih =>
    have hrec := ih (htrade.sound hv)
    have hq := (htrade.qty_bounds hv).1
    rw [Order.remaining_fill] at hrec
    omega

/-- The maker of a trade that is not filled stays in front of its queue. -/
theorem Trade.queued_rest (h : v.Trade i m q v') (hv : v.Sound) (hlt : q < m.remaining) :
    v'.Queued (!i.side.isBid) m.price [] (m.fill q) := by
  obtain ⟨rest, -, hlevel⟩ := h.level_other hv
  refine ⟨rest, ?_⟩
  rw [hlevel, if_pos rfl, if_neg hlt.ne]
  rfl

/-- In front of its queue the maker still waits for nobody. -/
theorem Trade.waiting_rest (h : v.Trade i m q v') (hv : v.Opposed !i.side.isBid) :
    v'.waiting (!i.side.isBid) m.price [] = 0 := by
  have hbefore := h.volumeBefore hv.sound m.price
  rw [if_neg (better_irrefl _ _), sub_zero] at hbefore
  rw [← h.waiting_maker hv.topped, waiting, waiting, hbefore]

/-- The maker of a trade that is filled is gone. -/
theorem Trade.maker_gone (h : v.Trade i m q v') (hle : m.remaining ≤ q) : v'.All (·.id ≠ m.id) := by
  rcases h.after_cases with ⟨-, hdrop⟩ | ⟨hlt, -, -⟩
  · exact fun x hx => (hdrop.mem_iff.mp hx).2
  · omega

/-- The maker of a trade waits in one place only. -/
theorem Trade.queued_maker_front (h : v.Trade i m q v') (hv : v.Sound)
    (ho : v.Queued (!i.side.isBid) t front m) : front = [] ∧ t = m.price := by
  obtain ⟨rest, hrest, -⟩ := h.level_other hv
  obtain rfl := ho.mem.2.2
  obtain ⟨back, hback⟩ := ho
  have hnd : ((v.level (!i.side.isBid) m.price).map (·.id)).Nodup :=
    hv.distinct.sublist (List.filter_sublist.map _)
  rw [hrest, List.map_cons, List.nodup_cons] at hnd
  rw [hrest] at hback
  cases front with
  | nil => exact ⟨rfl, rfl⟩
  | cons x front =>
    refine absurd (List.mem_map_of_mem ?_) hnd.1
    rw [(List.cons.inj hback).2]
    exact List.mem_append_right _ List.mem_cons_self

/-- A waiting order gets its share of what the loop executes. It is gone if that is all of it,
and otherwise it still waits with the rest. -/
theorem Matched.share (h : v.Matched i trades v' i') (hv : v.Opposed !i.side.isBid)
    (ho : v.Queued (!i.side.isBid) t front o) (hpos : 0 < o.remaining) {part : Int}
    (hpart : part =
      o.share (i.remaining - i'.remaining - v.waiting (!i.side.isBid) t front)) :
    takenFrom trades o.id = part ∧ (part = o.remaining → v'.All (·.id ≠ o.id)) ∧
      (part < o.remaining → ∃ front', v'.Queued (!i.side.isBid) t front' (o.fill part)) := by
  induction h generalizing front o part with
  | @stop v i _ =>
    have hzero : part = 0 := by
      have hwait := ho.waiting_nonneg hv.sound
      rw [hpart, Order.share]
      omega
    rw [hzero, Order.fill_zero]
    exact ⟨rfl, fun hall => absurd hall hpos.ne, fun _ => ⟨front, ho⟩⟩
  | @step v v' v'' i i' m q trades htrade hrest ih =>
    obtain ⟨hq, hqi, hqm⟩ := htrade.qty_bounds hv.sound
    have hsound := htrade.sound hv.sound
    have hle := hrest.remaining_le hsound
    rw [Order.remaining_fill] at hle
    rw [takenFrom_cons]
    by_cases hid : m.id = o.id
    · -- the order is the maker, and what it gives now counts towards its share
      obtain rfl := hv.sound.eq_of_id htrade.maker_at.1 ho.mem.1 hid
      obtain ⟨rfl, rfl⟩ := htrade.queued_maker_front hv.sound ho
      rw [htrade.waiting_maker hv.topped, Order.share] at hpart
      rw [if_pos rfl]
      by_cases hall : q = m.remaining
      · have hgone := htrade.maker_gone hall.ge
        rw [hrest.takenFrom_of_absent hsound hgone]
        refine ⟨by omega, fun _ => hrest.all hsound id id hgone, fun hlt => ?_⟩
        omega
      · have hlt : q < m.remaining := lt_of_le_of_ne hqm hall
        have hnext := htrade.queued_rest hv.sound hlt
        have hleft : 0 < (m.fill q).remaining := by
          rw [Order.remaining_fill]
          omega
        have hpart' : part - q = (m.fill q).share ((i.fill q).remaining - i'.remaining -
            v'.waiting (!i.side.isBid) m.price []) := by
          rw [Order.share, Order.remaining_fill, Order.remaining_fill, htrade.waiting_rest hv]
          omega
        obtain ⟨htaken, hgone, hstays⟩ := ih (htrade.opposed hv) hnext hleft hpart'
        rw [Order.id_fill] at htaken hgone
        rw [Order.remaining_fill] at hgone hstays
        rw [Order.fill_fill, add_sub_cancel] at hstays
        exact ⟨by omega, fun hfull => hgone (by omega), fun hpartial => hstays (by omega)⟩
    · rw [if_neg hid, zero_add]
      rcases htrade.queued_after hv ho with ⟨rfl, -, -⟩ | ⟨front', ho', hwait⟩
      · exact absurd rfl hid
      · refine ih (htrade.opposed hv) ho' hpos ?_
        rw [hpart, Order.side_fill, hwait, Order.remaining_fill]
        congr 1
        omega

/-- While an order within the limit waits, the loop goes on. -/
theorem Stops.exhausted (h : v.Stops i) (hv : v.Facing i)
    (hty : i.type = .limit ∨ i.type = .iceberg) (ho : v.Queued (!i.side.isBid) t front o)
    (hpos : 0 < o.remaining) (hcompat : ¬ Incompatible i t) : i.remaining ≤ 0 := by
  by_contra hrem
  have hzero := h.volumeTo_eq_zero hv (not_le.mp hrem)
  have hle : o.remaining ≤ v.volumeTo (!i.side.isBid) i.price := by
    refine hv.sound.remaining_le_sumOver ho.mem.1 (decide_eq_true ⟨ho.mem.2.1, ?_⟩)
    rwa [ho.mem.2.2, better_not, ← incompatible_iff hty]
  omega

/-- What an order with a price limit takes from a waiting order. -/
theorem Matched.share_limited (h : v.Matched i trades v' i') (hv : v.Facing i)
    (hty : i.type = .limit ∨ i.type = .iceberg) (ho : v.Queued (!i.side.isBid) t front o)
    (hpos : 0 < o.remaining) {part : Int} (hpart : part = if Incompatible i t then 0 else
      o.share (i.remaining - v.waiting (!i.side.isBid) t front)) :
    takenFrom trades o.id = part ∧ (part = o.remaining → v'.All (·.id ≠ o.id)) ∧
      (part < o.remaining → ∃ front', v'.Queued (!i.side.isBid) t front' (o.fill part)) := by
  have hshare := h.share hv.toOpposed ho hpos rfl
  suffices heq : part =
      o.share (i.remaining - i'.remaining - v.waiting (!i.side.isBid) t front) by
    rwa [heq]
  obtain ⟨htaken, -, hstays⟩ := hshare
  by_cases hbeyond : Incompatible i t
  · rw [hpart, if_pos hbeyond, ← htaken]
    refine (h.takenFrom_of_apart hv.sound fun x hx hid => Or.inr ?_).symm
    rwa [hv.sound.eq_of_id hx ho.mem.1 hid, ho.mem.2.2]
  · rw [if_neg hbeyond] at hpart
    have hfacing := h.facing hv
    have hnonneg := hfacing.sound.nonneg i' hfacing.taker
    by_cases hlt : o.share (i.remaining - i'.remaining -
        v.waiting (!i.side.isBid) t front) < o.remaining
    · obtain ⟨front', ho'⟩ := hstays hlt
      have hrest : i'.remaining ≤ 0 := by
        obtain ⟨filled, rfl⟩ := h.taker
        refine h.stops.exhausted hfacing hty ho' ?_ hbeyond
        rw [Order.remaining_fill]
        omega
      rw [hpart, show i'.remaining = 0 by omega, sub_zero]
    · rw [Order.share] at hlt hpart ⊢
      omega

/-- An order that enters does not touch the other side. -/
theorem Opposed.enter_other {n : NewOrder} (hv : v.Opposed !n.order.side.isBid)
    (hacc : v.Accepts n) : (v.enter n.order).Opposed !n.order.side.isBid := by
  have hchange : Change (fun x => x.side.isBid = !(!n.order.side.isBid)) v (v.enter n.order) :=
    .enter (by simp) (by simpa using hacc.fresh) (by simpa using hacc.valid.quantity_pos)
  exact hv.change hchange fun hf hs => absurd (hs.symm.trans hf) (by simp)

/-- Every order waits behind some front in its queue. -/
theorem exists_queued (ho : o ∈ v.orders) : ∃ front, v.Queued o.side.isBid o.price front o := by
  obtain ⟨front, back, hlevel⟩ := List.append_of_mem (mem_level.mpr ⟨ho, rfl, rfl⟩)
  exact ⟨front, back, hlevel⟩

/-- An entering order leaves the queues of the other side as they are. -/
theorem queued_enter_other {x : Order} :
    (v.enter x).Queued (!x.side.isBid) t front o ↔ v.Queued (!x.side.isBid) t front o := by
  rw [Queued, Queued, level_enter_other]

/-- After a new order there are the ids there were before and its own. -/
theorem Effect.ids {n : NewOrder} (h : v.Effect (.newOrder n) trades v') (hv : v.Sound) :
    v'.All fun x => x.id = n.id ∨ ∃ o ∈ v.orders, o.id = x.id :=
  h.invariant hv (·.id = n.id) (·.All fun x => x.id = n.id ∨ ∃ o ∈ v.orders, o.id = x.id)
    (fun _ => n.id_order) (fun hchange => hchange.all Or.inl (fun hx => hx) (fun hx => hx))
    fun x hx => Or.inr ⟨x, hx, rfl⟩

private theorem waiting_enter_other {x : Order} :
    (v.enter x).waiting (!x.side.isBid) t front = v.waiting (!x.side.isBid) t front := by
  rw [waiting, waiting, volumeBefore_enter]

/-- What limit and iceberg orders guarantee of a view whatever their side bytes are. -/
structure Standing (v : BookView) : Prop where
  opposed : ∀ s, v.Opposed s
  live : v.All (0 < ·.remaining)

/-- The empty book is standing. -/
theorem standing_empty : Standing ⟨[], fun _ _ => 0, fun _ => invalidPrice⟩ where
  opposed _ := ⟨⟨List.nodup_nil, by simp⟩, by simp [All], by simp [Topped, Occupied]⟩
  live := by simp [All]

/-- A call without market orders keeps the book standing. -/
theorem Effect.standing (h : v.Effect call trades v') (hcall : call.Rests) (hv : v.Standing) :
    v'.Standing := by
  have hsound := (hv.opposed true).sound
  refine ⟨fun s => h.invariant hsound (·.price ≠ invalidPrice) (·.Opposed s) ?_
    (fun hchange hw => hw.change hchange fun hf _ => hf) (hv.opposed s),
    h.live hsound (fun n hn => ?_) hv.live⟩
  · cases call with
    | newOrder n =>
      intro hacc
      have hty : n.type ≠ .market := by rcases hcall with hty | hty <;> simp [hty]
      rw [n.price_order hty]
      exact (invalidPrice_lt_of_pos (hacc.valid.price_pos hcall)).ne'
    | cancel id => trivial
    | modify id price qty =>
      intro o _ _ _ _ _
      rw [price_reentry]
      exact (invalidPrice_lt_of_pos hcall).ne'
  · subst hn
    rcases hcall with hty | hty <;> simp [hty]

end BookView

/-- What an incoming order with a price limit takes from an order of the book. -/
def OrderBook.taken (b : OrderBook) (n : NewOrder) (o : Order) : Int :=
  if o.side.isBid = n.side.isBid ∨ Incompatible n.order o.price then 0
  else o.share (n.quantity - b.ahead o)

private theorem OrderBook.taken_le {o : Order} (hpos : 0 < o.remaining) (b : OrderBook)
    (n : NewOrder) :
    b.taken n o ≤ o.remaining := by
  rw [taken]
  split
  · exact hpos.le
  · rw [Order.share]
    omega

namespace OrderBook.Shows

variable {b : OrderBook} {v v' w : BookView} {n : NewOrder} {i o : Order}
  {trades : List (Order × Int)}

section Matched

variable (h : b.Shows v) (hv : v.Regular) (hacc : v.Accepts n)
  (hty : n.type ≠ .market) (hmatched : (v.enter n.order).Matched n.order trades w i)

include h hv hacc hty hmatched

/-- What the loop takes from an order of the book, and what it leaves of it. -/
theorem matched_taken (ho : o ∈ v.orders) :
    takenFrom trades o.id = b.taken n o ∧
      (b.taken n o = o.remaining → w.All (·.id ≠ o.id)) ∧
      (b.taken n o < o.remaining → o.fill (b.taken n o) ∈ w.orders) := by
  have hfacing := hv.facing hacc
  have hmem : o ∈ (v.enter n.order).orders := List.mem_append_left _ ho
  by_cases hown : o.side.isBid = n.side.isBid
  · have hzero : b.taken n o = 0 := if_pos (Or.inl hown)
    have hkept : o ∈ w.own n.order := by
      rw [hmatched.own hfacing.sound]
      refine List.mem_filter.mpr ⟨hmem, ?_⟩
      simp [hown, hacc.fresh o ho]
    rw [hzero, Order.fill_zero]
    refine ⟨?_, fun hall => absurd hall (hv.live o ho).ne, fun _ => (List.mem_filter.mp hkept).1⟩
    refine hmatched.takenFrom_of_apart hfacing.sound fun x hx hid => Or.inl ?_
    rw [hfacing.sound.eq_of_id hx hmem hid, hown, n.side_order]
  · have hother : o.side.isBid = !n.order.side.isBid := by
      rw [n.side_order]
      exact Bool.eq_not_of_ne hown
    obtain ⟨front, hqueued⟩ := BookView.exists_queued ho
    have hahead := h.ahead hqueued
    rw [hother] at hqueued hahead
    have htaken : b.taken n o = if Incompatible n.order o.price then 0 else
        o.share (n.order.remaining -
          (v.enter n.order).waiting (!n.order.side.isBid) o.price front) := by
      rw [taken, BookView.waiting_enter_other, n.remaining_order, hahead]
      simp only [hown, false_or]
    obtain ⟨heq, hgone, hstays⟩ := hmatched.share_limited hfacing (n.limited_order hty)
      (BookView.queued_enter_other.mpr hqueued) (hv.live o ho) htaken
    refine ⟨heq, hgone, fun hlt => ?_⟩
    obtain ⟨front', hrest⟩ := hstays hlt
    exact hrest.mem.1

/-- What the loop leaves of the incoming order. -/
theorem matched_rest : i = n.order.fill (min n.quantity (b.volumeTo (!n.side.isBid) n.price)) := by
  have hfacing := hv.facing hacc
  have hrem := hmatched.remaining_eq hfacing (n.limited_order hty)
  have hvolume := BookView.volumeTo_enter v n.order n.order.price
  have hpos := hacc.valid.quantity_pos
  rw [hvolume, n.side_order, n.price_order hty, ← h.volumeTo, n.remaining_order] at hrem
  obtain ⟨filled, rfl⟩ := hmatched.taker
  rw [Order.remaining_fill, n.remaining_order] at hrem
  congr 1
  omega

end Matched

section NewOrder

variable (h : b.Shows v) (hv : v.Regular) (hacc : v.Accepts n) (hside : n.side.Named)
  (hty : n.type ≠ .market) (heffect : v.Effect (.newOrder n) trades v')

include h hv hacc hside hty heffect

/-- What a new order takes from an order of the book, and what it leaves of it. -/
theorem newOrder_taken (ho : o ∈ v.orders) :
    takenFrom trades o.id = b.taken n o ∧
      (b.taken n o = o.remaining → v'.All (·.id ≠ o.id)) ∧
      (b.taken n o < o.remaining → o.fill (b.taken n o) ∈ v'.orders) := by
  cases heffect with
  | refused hno => exact absurd hacc hno
  | rested _ _ hcross =>
    have hapart : o.side.isBid = n.side.isBid ∨ Incompatible n.order o.price := by
      by_contra hmeets
      rw [not_or] at hmeets
      rw [BookView.incompatible_iff (n.limited_order hty), n.side_order, n.price_order hty] at hmeets
      rw [hv.crosses_iff hside, not_lt] at hcross
      have hle := hv.sound.remaining_le_sumOver ho (P := fun x =>
        x.side.isBid = (!n.side.isBid) ∧ ¬ Better (!n.side.isBid) n.price x.price)
        (decide_eq_true ⟨Bool.eq_not_of_ne hmeets.1, by rw [better_not]; exact hmeets.2⟩)
      exact absurd (hv.live o ho) (not_lt.mpr (hle.trans hcross))
    have hzero : b.taken n o = 0 := if_pos hapart
    rw [hzero, Order.fill_zero]
    exact ⟨rfl, fun hall => absurd hall (hv.live o ho).ne, fun _ => List.mem_append_left _ ho⟩
  | @matched _ _ w _ i _ _ hmatched hsettled =>
    obtain ⟨heq, hgone, hstays⟩ := h.matched_taken hv hacc hty hmatched ho
    have hid : i.id = n.id := by
      obtain ⟨filled, rfl⟩ := hmatched.taker
      exact n.id_order
    rw [BookView.Settled] at hsettled
    split at hsettled
    · refine ⟨heq, fun hall x hx => hgone hall x (hsettled.mem_iff.mp hx).1, fun hlt => ?_⟩
      refine hsettled.mem_iff.mpr ⟨hstays hlt, ?_⟩
      rw [Order.id_fill, hid]
      exact hacc.fresh o ho
    · rw [hsettled]
      exact ⟨heq, hgone, hstays⟩

/-- What a new order leaves of itself. -/
theorem newOrder_rest :
    (b.volumeTo (!n.side.isBid) n.price < n.quantity →
        n.order.fill (b.volumeTo (!n.side.isBid) n.price) ∈ v'.orders) ∧
      (n.quantity ≤ b.volumeTo (!n.side.isBid) n.price → v'.All (·.id ≠ n.id)) := by
  cases heffect with
  | refused hno => exact absurd hacc hno
  | rested _ _ hcross =>
    have hzero : b.volumeTo (!n.side.isBid) n.price = 0 := by
      rw [hv.crosses_iff hside, not_lt] at hcross
      rw [h.volumeTo]
      exact le_antisymm hcross (hv.sound.sumOver_nonneg _)
    rw [hzero, Order.fill_zero]
    refine ⟨fun _ => by simp [BookView.enter, BookView.place], fun hle => ?_⟩
    exact absurd hacc.valid.quantity_pos (not_lt.mpr hle)
  | @matched _ _ w _ i _ _ hmatched hsettled =>
    have hfacing := (hmatched.facing (hv.facing hacc))
    have hrest := h.matched_rest hv hacc hty hmatched
    have hrem : i.remaining =
        n.quantity - min n.quantity (b.volumeTo (!n.side.isBid) n.price) := by
      rw [hrest, Order.remaining_fill, n.remaining_order]
    rw [BookView.Settled] at hsettled
    simp only [hty, false_iff] at hsettled
    constructor
    · intro hlt
      rw [if_neg (by omega)] at hsettled
      rw [hsettled, ← min_eq_right hlt.le, ← hrest]
      exact hfacing.taker
    · intro hle
      rw [if_pos (by omega)] at hsettled
      intro x hx
      have hne := (hsettled.mem_iff.mp hx).2
      rwa [hrest, Order.id_fill, n.id_order] at hne

/-- The orders after a new order are what it leaves of the orders before and of itself. -/
theorem newOrder_all_iff (h' : v'.Sound) {P : Order → Prop} :
    v'.All P ↔ (∀ o ∈ v.orders, b.taken n o < o.remaining → P (o.fill (b.taken n o))) ∧
      (b.volumeTo (!n.side.isBid) n.price < n.quantity →
        P (n.order.fill (b.volumeTo (!n.side.isBid) n.price))) := by
  have htaken : ∀ o ∈ v.orders, _ := fun o ho => h.newOrder_taken hv hacc hside hty heffect ho
  obtain ⟨hrest, hnone⟩ := h.newOrder_rest hv hacc hside hty heffect
  constructor
  · exact fun hall => ⟨fun o ho hlt => hall _ ((htaken o ho).2.2 hlt), fun hlt => hall _ (hrest hlt)⟩
  · rintro ⟨hold, hnew⟩ x hx
    rcases heffect.ids hv.sound x hx with hid | ⟨o, ho, hid⟩
    · rcases lt_or_ge (b.volumeTo (!n.side.isBid) n.price) n.quantity with hlt | hge
      · rw [h'.eq_of_id hx (hrest hlt) (hid.trans n.id_order.symm)]
        exact hnew hlt
      · exact absurd hid (hnone hge x hx)
    · obtain ⟨-, hgone, hstays⟩ := htaken o ho
      rcases (OrderBook.taken_le (hv.live o ho) b n).lt_or_eq with hlt | heq
      · rw [h'.eq_of_id hx (hstays hlt) hid.symm]
        exact hold o ho hlt
      · exact absurd hid.symm (hgone heq x hx)

end NewOrder

end OrderBook.Shows

end LiquidityArena

import LiquidityArena.Lib.Loop
import LiquidityArena.View.Observe

/-!
# When iceberg slices lose time priority

The engine tests whether the display slice of an iceberg is used up by a remainder
that is always smaller than the slice, so the test never succeeds and a resting
iceberg keeps its place for all of its hidden quantity. Every pass of the matching
loop obeys the rule for used-up slices exactly when none of them uses one up, and
this can be read off the book before the order arrives.
-/

namespace LiquidityArena

open MatchingEngine OrderBook

namespace Order

/-- What is left of the current display slice. -/
def sliceLeft (o : Order) : Int := o.displayQty - o.filledQuantity % o.displayQty

/-- The order has hidden quantity beyond its current slice. -/
def HasReserve (o : Order) : Prop := o.hasHiddenQty = true ∧ o.sliceLeft < o.remaining

instance (o : Order) : Decidable o.HasReserve := inferInstanceAs (Decidable (_ ∧ _))

/-- An execution of `q` uses up the current slice of an order that has hidden quantity. -/
def Exhausts (o : Order) (q : Int) : Prop := o.HasReserve ∧ o.sliceLeft ≤ q

instance (o : Order) (q : Int) : Decidable (o.Exhausts q) := inferInstanceAs (Decidable (_ ∧ _))

end Order

/-- The rule for one pass of the matching loop: an execution that uses up the slice of an
iceberg with hidden quantity stops there, and the order is then last in its queue with a
fresh slice taken from its hidden quantity. -/
def SliceRule (e e' : MatchingEngine) : Prop :=
  ∀ fill m, e'.fills = e.fills ++ [fill] → e.book.orderOf fill.makerId = some m →
    m.Exhausts fill.quantity →
    fill.quantity = m.sliceLeft ∧ ∃ m', (e'.book.queueOf m.side.isBid m.price).getLast? = some m' ∧
      m'.id = m.id ∧ m'.hiddenQty = m.hiddenQty - min m.displayQty m.hiddenQty

/-- Every pass of the matching loop of an incoming order obeys the rule. -/
def MatchingEngine.SlicesRotate (e : MatchingEngine) (ord : HashOrder) (n : NewOrder) : Prop :=
  ∀ p e₀, e.entered n = some (p, e₀) → ∀ e₁ e₂, Loop.Reaches (matchStep · ord p) e₀ e₁ →
    e₁.matchStep ord p = some e₂ → SliceRule e₁ e₂

/-- The incoming order is too small to use up the slice of any iceberg with hidden quantity
that it can reach. -/
def OrderBook.Spares (b : OrderBook) (i : Order) : Prop :=
  ∀ m ∈ b.ordersOf (!i.side.isBid), m.HasReserve → ¬ Incompatible i m.price →
    i.remaining < b.ahead m + m.sliceLeft

instance (b : OrderBook) (i : Order) : Decidable (b.Spares i) :=
  inferInstanceAs (Decidable (∀ m ∈ b.ordersOf (!i.side.isBid), _))

namespace Order

variable {o : Order} {q : Int}

private theorem sliceLeft_pos (h : 0 < o.displayQty) : 0 < o.sliceLeft := by
  have := Int.emod_lt_of_pos o.filledQuantity h
  rw [sliceLeft]
  omega

private theorem sliceLeft_le (h : 0 < o.displayQty) : o.sliceLeft ≤ o.displayQty := by
  have := Int.emod_nonneg o.filledQuantity h.ne'
  rw [sliceLeft]
  omega

private theorem HasReserve.iceberg (h : o.HasReserve) : o.type = .iceberg := by
  have hhidden := h.1
  rw [hasHiddenQty, decide_eq_true_eq] at hhidden
  exact hhidden.1

/-- An execution within the slice leaves the rest of the slice. -/
theorem sliceLeft_fill (hd : 0 < o.displayQty) (hq : 0 ≤ q) (h : q < o.sliceLeft) :
    (o.fill q).sliceLeft = o.sliceLeft - q := by
  have hnonneg := Int.emod_nonneg o.filledQuantity hd.ne'
  have hmod : (o.filledQuantity + q) % o.displayQty = o.filledQuantity % o.displayQty + q := by
    rw [← Int.emod_add_emod]
    refine Int.emod_eq_of_lt (by omega) ?_
    rw [sliceLeft] at h
    omega
  rw [sliceLeft, displayQty_fill, sliceLeft, fill, hmod]
  omega

end Order

namespace BookView

variable {v v' : BookView} {i i' m : Order} {q : Int} {trades : List (Order × Int)}

/-- The incoming order uses up no slice of an iceberg with hidden quantity. -/
def Spare (v : BookView) (i : Order) : Prop :=
  ∀ t front o, v.Queued (!i.side.isBid) t front o → o.HasReserve → ¬ Incompatible i t →
    i.remaining < v.waiting (!i.side.isBid) t front + o.sliceLeft

/-- Some is left after the trades of a loop only if the rest of the other side is out of reach. -/
theorem Stops.incompatible (h : v.Stops i) (hv : v.Facing i) (hrem : 0 < i.remaining) {o : Order}
    (ho : o ∈ v.orders) (hs : o.side.isBid = !i.side.isBid) : Incompatible i o.price := by
  obtain ⟨hne, hnb⟩ := hv.topped o.price ⟨o, ho, hs, rfl⟩
  rcases h with hle | hinv | hinc | hnil
  · exact absurd hrem (not_lt.mpr hle)
  · exact absurd hinv hne
  · have hlimited := hinc.1
    rw [incompatible_iff hlimited] at hinc ⊢
    rw [better_not] at hnb
    by_contra hno
    exact not_better_trans hnb hno hinc
  · exact absurd (hv.anchored.resolve_left hne) fun hocc => level_ne_nil_iff.mpr hocc hnil

/-- A loop that has stopped spares every slice. -/
theorem Stops.spare (h : v.Stops i) (hv : v.Facing i)
    (hd : v.All fun o => o.type = .iceberg → 0 < o.displayQty) : v.Spare i := by
  intro t front o ho hres hcompat
  obtain ⟨hmem, hs, rfl⟩ := ho.mem
  have hslice := Order.sliceLeft_pos (hd o hmem hres.iceberg)
  have hrem : i.remaining ≤ 0 := by
    by_contra hpos
    exact hcompat (h.incompatible hv (not_le.mp hpos) hmem hs)
  have hwait := ho.waiting_nonneg hv.sound
  omega

/-- A trade spares the slices that the rest of the loop and the trade itself spare. -/
theorem Trade.spare_iff (h : v.Trade i m q v') (hv : v.Facing i)
    (hd : v.All fun o => o.type = .iceberg → 0 < o.displayQty) :
    v.Spare i ↔ ¬ m.Exhausts q ∧ v'.Spare (i.fill q) := by
  obtain ⟨hq, hqi, hqm⟩ := h.qty_bounds hv.sound
  have hzero := h.waiting_maker hv.topped
  have hcompat : ¬ Incompatible i m.price := by
    rw [h.maker_at.2.2]
    exact h.compatible
  constructor
  · refine fun hsp => ⟨fun hex => ?_, fun t front o ho hres hc => ?_⟩
    · have hlt := hsp _ [] m (h.queued_maker hv.sound) hex.1 hcompat
      have hle := hex.2
      omega
    · rcases h.queued_before hv.toOpposed ho with ⟨rfl, hlt, rfl, rfl⟩ | ⟨front', ho', hwait⟩
      · have hwait := ho.waiting_nonneg (h.sound hv.sound)
        have hdisplay := hd m h.maker_at.1 hres.iceberg
        have hslice := hres.2
        rw [Order.remaining_fill] at hslice ⊢
        by_cases hwithin : m.sliceLeft < m.remaining
        · have hspare := hsp _ [] m (h.queued_maker hv.sound) ⟨hres.1, hwithin⟩ hcompat
          rw [Order.sliceLeft_fill hdisplay hq (by omega)]
          omega
        · rw [Order.sliceLeft_fill hdisplay hq (by omega)] at hslice
          omega
      · have hspare := hsp t front' o ho' hres hc
        rw [Order.remaining_fill, Order.side_fill]
        omega
  · rintro ⟨hno, hsp⟩ t front o ho hres hc
    rcases h.queued_after hv.toOpposed ho with ⟨rfl, rfl, rfl⟩ | ⟨front', ho', hwait⟩
    · by_contra hle
      refine hno ⟨hres, ?_⟩
      have hdisplay := hd o h.maker_at.1 hres.iceberg
      have hslice := Order.sliceLeft_le hdisplay
      have hreserve := hres.2
      rw [h.qty, makerAvailable, if_pos ⟨hres.iceberg, hdisplay⟩]
      omega
    · have hspare := hsp t front' o ho' hres hc
      rw [Order.remaining_fill, Order.side_fill] at hspare
      omega

end BookView

namespace OrderBook.Shows

variable {e e' : MatchingEngine} {b : OrderBook} {v v' : BookView} {i m : Order} {q : Int}

/-- Whether slices are spared is read off the view. -/
theorem spares_iff (h : b.Shows v) (i : Order) : b.Spares i ↔ v.Spare i := by
  constructor
  · intro hsp t front o ho hres hc
    obtain ⟨hmem, hs, rfl⟩ := ho.mem
    rw [← h.ahead ho]
    exact hsp o (h.mem_ordersOf.mpr ⟨hmem, hs⟩) hres hc
  · intro hsp o ho hres hc
    obtain ⟨hmem, hs⟩ := h.mem_ordersOf.mp ho
    obtain ⟨front, back, hsplit⟩ :=
      List.append_of_mem (BookView.mem_level.mpr ⟨hmem, hs, rfl⟩ : o ∈ v.level _ o.price)
    rw [h.ahead ⟨back, hsplit⟩]
    exact hsp o.price front o ⟨back, hsplit⟩ hres hc

/-- A pass obeys the rule exactly when it uses up no slice: it never takes anything from the
hidden quantity. -/
theorem sliceRule_iff (h : e.book.Shows v) (h' : e'.book.Shows v') (htrade : v.Trade i m q v')
    {fees : FeeSchedule} {id : OrderId} (hfills : e'.fills = e.fills ++ [fillMsg fees m id q]) :
    SliceRule e e' ↔ ¬ m.Exhausts q := by
  have hm : e.book.orderOf m.id = some m := h.orderOf_eq_some_iff.mpr ⟨htrade.maker_at.1, rfl⟩
  constructor
  · intro hrule hex
    obtain ⟨-, m', hlast, hid, hhidden⟩ := hrule _ m hfills hm hex
    have hmem' : m' ∈ v'.orders := by
      have hmem := List.mem_of_getLast? hlast
      rw [h'.queueOf] at hmem
      exact (BookView.mem_level.mp hmem).1
    have hkept : v'.All fun x => ∃ y ∈ v.orders, y.id = x.id ∧ y.hiddenQty = x.hiddenQty :=
      htrade.all h.sound (fun hx => hx) (fun hx => hx) fun x hx => ⟨x, hx, rfl, rfl⟩
    obtain ⟨y, hy, hyid, hyhidden⟩ := hkept m' hmem'
    rw [h.sound.eq_of_id hy htrade.maker_at.1 (hyid.trans hid)] at hyhidden
    have hdisplay := h.display htrade.maker_at.1 hex.1.iceberg
    have hpos := hex.1.1
    rw [Order.hasHiddenQty, decide_eq_true_eq] at hpos
    omega
  · intro hno fill x hfill hx hex
    obtain rfl : fillMsg fees m id q = fill := by
      have hcancel := List.append_cancel_left (hfills.symm.trans hfill)
      exact List.singleton_inj.mp hcancel
    obtain rfl : m = x := Option.some.inj (hm.symm.trans hx)
    exact absurd hex hno

end OrderBook.Shows

/-- The order in the slot is being matched against a book that shows the view. -/
def MatchingEngine.Matching (e : MatchingEngine) (p : Ptr) (v : BookView) : Prop :=
  ∃ ps, e.book.Rep ps ∧ p ∈ ps ∧ e.book.view ps = v ∧ v.Facing (e.book.pool.get p).unlink

namespace MatchingEngine.Matching

variable {e : MatchingEngine} {p : Ptr} {v : BookView}

private theorem shows (h : e.Matching p v) : e.book.Shows v := by
  obtain ⟨ps, hrep, -, hview, hv⟩ := h
  exact ⟨ps, hrep, hview, hv.sound⟩

private theorem facing (h : e.Matching p v) : v.Facing (e.book.pool.get p).unlink := by
  obtain ⟨-, -, -, -, hv⟩ := h
  exact hv

/-- A pass is an exit or a trade. -/
theorem step (h : e.Matching p v) (ord : HashOrder) :
    (v.Stops (e.book.pool.get p).unlink ∧ e.matchStep ord p = none) ∨
      ∃ m q e' v', e.matchStep ord p = some e' ∧ e'.Matching p v' ∧
        v.Trade (e.book.pool.get p).unlink m q v' ∧
        (e'.book.pool.get p).unlink = (e.book.pool.get p).unlink.fill q ∧
        e'.fills = e.fills ++ [fillMsg e.fees m (e.book.pool.get p).unlink.id q] := by
  obtain ⟨ps, hrep, hp, rfl, hv⟩ := h
  rcases hrep.matchStep_cases hp ord with
    hstop | ⟨m, q, book, ps', hsome, hrep', hp', hget, htrade⟩
  · exact Or.inl hstop
  · have hfacing : (book.view ps').Facing (book.pool.get p).unlink := by
      rw [hget]
      exact htrade.facing hv
    exact Or.inr ⟨m, q, _, _, hsome, ⟨ps', hrep', hp', rfl, hfacing⟩, htrade, hget, rfl⟩

/-- All passes of the loop obey the rule exactly when the incoming order spares all slices. -/
theorem passes_iff (h : e.Matching p v) (ord : HashOrder) :
    (∀ e₁ e₂, Loop.Reaches (matchStep · ord p) e e₁ → e₁.matchStep ord p = some e₂ →
        SliceRule e₁ e₂) ↔ e.book.Spares (e.book.pool.get p).unlink := by
  refine Loop.passes_iff (matchStep · ord p) (fun e => ∃ v, e.Matching p v)
    (fun e => e.book.Spares (e.book.pool.get p).unlink) SliceRule
    (fun e => e.book.totalOrders + (e.book.pool.get p).unlink.remaining.toNat) ?_ ?_ ?_ ⟨v, h⟩
  · rintro e e' ⟨v, h⟩ hpass
    rcases h.step ord with ⟨-, hnone⟩ | ⟨m, q, e'', v', hsome, h', htrade, hget, -⟩
    · cases hnone.symm.trans hpass
    · obtain rfl := Option.some.inj (hsome.symm.trans hpass)
      exact ⟨⟨v', h'⟩, h.shows.measure_lt h'.shows htrade hget⟩
  · rintro e ⟨v, h⟩ hexit
    rcases h.step ord with ⟨hstop, -⟩ | ⟨m, q, e'', v', hsome, -⟩
    · rw [h.shows.spares_iff]
      exact hstop.spare h.facing fun o ho hice => h.shows.display ho hice
    · cases hsome.symm.trans hexit
  · rintro e e' ⟨v, h⟩ hpass
    rcases h.step ord with ⟨-, hnone⟩ | ⟨m, q, e'', v', hsome, h', htrade, hget, hfills⟩
    · cases hnone.symm.trans hpass
    · obtain rfl := Option.some.inj (hsome.symm.trans hpass)
      rw [h.shows.spares_iff, h'.shows.spares_iff, h.shows.sliceRule_iff h'.shows htrade hfills,
        hget]
      exact htrade.spare_iff h.facing fun o ho hice => h.shows.display ho hice

end MatchingEngine.Matching

/-- The engine may match the order: it is a bid or an ask, or a market order. -/
def NewOrder.Matchable (n : NewOrder) : Prop := n.side.Named ∨ n.type = .market

instance (n : NewOrder) : Decidable n.Matchable := inferInstanceAs (Decidable (_ ∨ _))

/-- An order with neither name for a side never crosses the spread. -/
theorem MatchingEngine.matchable_of_entered {e e₀ : MatchingEngine} {n : NewOrder} {p : Ptr}
    (h : e.entered n = some (p, e₀)) : n.Matchable := by
  refine or_iff_not_imp_right.mpr fun hty => ?_
  unfold entered at h
  dsimp only at h
  by_cases hvalid : n.Valid
  · rw [if_pos hvalid, if_neg hty] at h
    split at h
    · cases h
    · split_ifs at h with hcross
      exact hcross.imp And.left And.left
  · rw [if_neg hvalid] at h
    cases h

/-- On a regular book the matching loop of an order obeys the rule exactly when the order,
if it is accepted and may be matched, spares all slices. -/
theorem OrderBook.Shows.slicesRotate_iff {e : MatchingEngine} {v : BookView} (h : e.book.Shows v)
    (hv : v.Regular) (n : NewOrder) (ord : HashOrder) :
    e.SlicesRotate ord n ↔ (e.book.Admits n → n.Matchable → e.book.Spares n.order) := by
  have hspares : (v.enter n.order).Spare n.order ↔ e.book.Spares n.order := by
    rw [h.spares_iff]
    simp only [BookView.Spare, BookView.Queued, BookView.level_enter_other, BookView.waiting,
      BookView.volumeBefore_enter]
  rw [h.admits_iff]
  obtain ⟨ps, hrep, rfl, -⟩ := id h
  rcases hrep.entered_cases n with
    ⟨hnone, hrests⟩ | ⟨p, e₀, hsome, hacc, hrep', hview, hget⟩
  · refine iff_of_true (fun p e₀ he => ?_) fun hacc hmay m hm _ hc => ?_
    · cases hnone.symm.trans he
    · -- An order that does not cross the spread reaches nobody.
      obtain ⟨hty, hcross⟩ := hrests hacc
      have hside := hmay.resolve_right hty
      obtain ⟨hmem, hs⟩ := h.mem_ordersOf.mp hm
      rw [n.side_order] at hs
      obtain ⟨hne, hnb⟩ := hv.topped (!n.side.isBid) m.price ⟨m, hmem, hs, rfl⟩
      rw [BookView.incompatible_iff (n.limited_order hty), n.side_order, n.price_order hty] at hc
      rw [better_not] at hnb
      exact absurd ⟨hside, hne, not_better_trans hnb hc⟩ hcross
  · have hmatching : e₀.Matching p ((e.book.view ps).enter n.order) := by
      refine ⟨_, hrep', by simp, hview, ?_⟩
      rw [hget]
      exact hv.facing hacc
    have hpasses := hmatching.passes_iff ord
    rw [hmatching.shows.spares_iff, hget, hspares] at hpasses
    constructor
    · exact fun hrot _ _ => hpasses.mp (hrot p e₀ hsome)
    · intro hsafe p' e₀' he
      obtain ⟨rfl, rfl⟩ := Prod.mk.inj (Option.some.inj (hsome.symm.trans he))
      exact hpasses.mpr (hsafe hacc (matchable_of_entered hsome))

/-- After every run of limit and iceberg orders, cancels and modifies whose accepted orders are
bids and asks and of which none moves an order to the sentinel price, the executions of an incoming
order obey the rule for used-up slices exactly when the order, if it is accepted and may be
matched, is too small to use up the slice of an iceberg with hidden quantity. -/
theorem run_slicesRotate_iff (fees : FeeSchedule) (calls : List (HashOrder × Call))
    (hcalls : ∀ c ∈ calls, c.2.NoMarket)
    (hfit : (MatchingEngine.init fees).RunMeets EntersFit calls) :
    ∃ e, (MatchingEngine.init fees).run calls = some e ∧
      ∀ (ord : HashOrder) (n : NewOrder), e.SlicesRotate ord n ↔
        (e.book.Admits n → n.Matchable → e.book.Spares n.order) := by
  obtain ⟨e, v, hrun, hshows, hv⟩ := MatchingEngine.run_rule BookView.Regular
    (fun b call => call.NoMarket ∧ EntersFit b call)
    (fun h hv hok heffect _ => heffect.regular_of_fit h hv hok.1.not_market hok.2)
    (e := MatchingEngine.init fees) OrderBook.shows_init BookView.regular_empty
    (hfit.and_forall hcalls)
  exact ⟨e, hrun, fun ord n => hshows.slicesRotate_iff hv n ord⟩

/-- An iceberg of 10 that shows 4, of which 3 have traded, with a limit order behind it: a bid for
1 uses up the slice and a bid below the iceberg's price does not. -/
theorem run_slicesRotate_iff_partial_slice :
    ∃ e, (MatchingEngine.init {}).run
        [(HashOrder.recent, .newOrder ⟨1, .ask, .iceberg, 103, 10, 0, 4⟩),
          (HashOrder.recent, .newOrder ⟨2, .ask, .limit, 103, 5, 0, 0⟩),
          (HashOrder.recent, .newOrder ⟨3, .bid, .limit, 103, 3, 0, 0⟩)] = some e ∧
      ¬ e.SlicesRotate HashOrder.recent ⟨4, .bid, .limit, 103, 1, 0, 0⟩ ∧
      e.SlicesRotate HashOrder.recent ⟨4, .bid, .limit, 102, 1, 0, 0⟩ := by
  have hfit : ∀ (b : OrderBook) (n : NewOrder), n.side.Named ∧ invalidPrice < n.price →
      EntersFit b (.newOrder n) := fun _ _ hn _ => hn.imp_right fun hprice _ => hprice
  obtain ⟨e, hrun, hiff⟩ := run_slicesRotate_iff {}
    [(HashOrder.recent, .newOrder ⟨1, .ask, .iceberg, 103, 10, 0, 4⟩),
      (HashOrder.recent, .newOrder ⟨2, .ask, .limit, 103, 5, 0, 0⟩),
      (HashOrder.recent, .newOrder ⟨3, .bid, .limit, 103, 3, 0, 0⟩)] (by decide)
    ⟨hfit _ _ (by decide), fun _ _ => ⟨hfit _ _ (by decide), fun _ _ =>
      ⟨hfit _ _ (by decide), fun _ _ => trivial⟩⟩⟩
  refine ⟨e, hrun, fun hrot => ?_, (hiff _ _).mpr fun _ _ => ?_⟩ <;>
    obtain rfl := Option.some.inj hrun
  · exact absurd ((hiff _ _).mp hrot (by decide) (by decide)) (by decide)
  · decide

/-- A bid for 8 takes two slices of 4 from an iceberg, ahead of the order queued behind it. -/
theorem exhausted_slice_keeps_priority :
    (∀ c ∈ [(HashOrder.recent, Call.newOrder ⟨1, .ask, .iceberg, 103, 10, 0, 4⟩),
        (HashOrder.recent, .newOrder ⟨2, .ask, .limit, 103, 5, 0, 0⟩)], c.2.NoMarket) ∧
      ∃ e e', (MatchingEngine.init {}).run
          [(HashOrder.recent, .newOrder ⟨1, .ask, .iceberg, 103, 10, 0, 4⟩),
            (HashOrder.recent, .newOrder ⟨2, .ask, .limit, 103, 5, 0, 0⟩)] = some e ∧
        e.perform HashOrder.recent (.newOrder ⟨3, .bid, .limit, 103, 8, 0, 0⟩) = some e' ∧
        e'.fills.map (fun fill => (fill.makerId, fill.quantity)) = [(1, 4), (1, 4)] ∧
        ¬ e.SlicesRotate HashOrder.recent ⟨3, .bid, .limit, 103, 8, 0, 0⟩ := by
  refine ⟨by decide, _, _, rfl, rfl, by decide, fun hrot => ?_⟩
  obtain ⟨-, m', hlast, hid, -⟩ := hrot _ _ rfl _ _ .refl rfl _ _ rfl rfl (by decide)
  obtain rfl := Option.some.inj hlast
  exact absurd hid (by decide)

end LiquidityArena

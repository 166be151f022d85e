import LiquidityArena.View.Observe

/-!
# When published depth is what is displayed

An iceberg enters a level with its display slice, but fills, cancels and modifies
take other amounts off the level's counter. The counter stays right as long as no
order with a hidden part is touched, except when its level is emptied by the same
call. For the matching loop this is an invariant: a level is balanced, or the
incoming order is going to empty it.
-/

namespace LiquidityArena

open OrderBook

/-- Some of what remains of the order is not displayed. -/
def Order.Hides (o : Order) : Prop := o.visibleRemaining ≠ o.remaining

instance (o : Order) : Decidable o.Hides := inferInstanceAs (Decidable (_ ≠ _))

/-- What the orders queued at a level display. -/
def OrderBook.shown (b : OrderBook) (isBid : Bool) (price : Int) : Int :=
  ((b.queueOf isBid price).map Order.visibleRemaining).sum

/-- Every level counts what its orders display, and nothing published is zero or negative. -/
structure MatchingEngine.DisplaysDepth (e : MatchingEngine) : Prop where
  levels : ∀ s t level, (e.book.levels s).lookup t = some level →
    level.totalQuantity = e.book.shown s t
  depth : ∀ ord s count, ∀ d ∈ e.book.getDepth ord s count, 0 < d.quantity
  bids : ∀ ord k, k < (e.getBookSnapshot ord).numBidLevels →
    0 < (e.getBookSnapshot ord).bidQuantities.getD k 0
  asks : ∀ ord k, k < (e.getBookSnapshot ord).numAskLevels →
    0 < (e.getBookSnapshot ord).askQuantities.getD k 0

/-- The order can leave its level without upsetting the counter: it hides nothing, or the
level goes with it. -/
def OrderBook.Detachable (b : OrderBook) (o : Order) : Prop :=
  ¬ o.Hides ∨ b.queueOf o.side.isBid o.price = [o]

instance (b : OrderBook) (o : Order) : Decidable (b.Detachable o) :=
  inferInstanceAs (Decidable (_ ∨ _))

/-- The book can take a new order and match it without upsetting a counter. -/
structure OrderBook.EntrySafe (b : OrderBook) (n : NewOrder) : Prop where
  /-- The order is a bid or an ask. -/
  side : n.side.Named
  /-- The order shows all of itself, or it does not trade and shows no more than itself, or
  it is filled and has its level for itself. -/
  display : BookView.entryDepth n.order = n.quantity ∨
    b.volumeTo (!n.side.isBid) n.price = 0 ∧ BookView.entryDepth n.order ≤ n.quantity ∨
    n.quantity ≤ b.volumeTo (!n.side.isBid) n.price ∧ b.queueOf n.side.isBid n.price = []
  /-- What is left of it fits into the 32-bit counter. -/
  room : b.volumeTo (!n.side.isBid) n.price < n.quantity →
    b.shown n.side.isBid n.price + min (BookView.entryDepth n.order)
      (n.quantity - b.volumeTo (!n.side.isBid) n.price) < 2 ^ 31
  /-- A level in which it reaches an order with a hidden part is emptied. -/
  makers : ∀ m ∈ b.ordersOf (!n.side.isBid), m.Hides → ¬ Better (!n.side.isBid) n.price m.price →
    b.ahead m < n.quantity → b.volumeTo (!n.side.isBid) m.price ≤ n.quantity

/-- The call takes off the counters what it takes off the display. -/
def DepthSafe (b : OrderBook) : Call → Prop
  | .newOrder n => b.Admits n → b.EntrySafe n
  | .cancel id => ∀ o, b.orderOf id = some o → b.Detachable o
  | .modify id price qty => ∀ o, b.orderOf id = some o → 0 < qty → qty ≤ o.remaining →
      if price = o.price then qty = o.remaining ∨ ¬ o.Hides
      else b.Detachable o ∧ BookView.entryDepth (BookView.reentry o price qty) ≤ qty ∧
        b.shown o.side.isBid price + BookView.entryDepth (BookView.reentry o price qty) < 2 ^ 31

/-- The requirement asks for a bid or an ask wherever an order is accepted. -/
theorem DepthSafe.named {b : OrderBook} {call : Call} (h : DepthSafe b call) :
    AdmitsNamed b call := by
  cases call with
  | newOrder n => exact fun hadmits => (h hadmits).side
  | cancel id => trivial
  | modify id price qty => trivial

namespace Order

variable {o : Order} {q : Int}

/-- An order without a hidden part never gets one by trading. -/
theorem not_hides_fill (h : ¬ o.Hides) (hq : 0 ≤ q) : ¬ (o.fill q).Hides := by
  rw [Hides, not_not, visibleRemaining] at h ⊢
  rw [type_fill, displayQty_fill, remaining_fill]
  split_ifs at h ⊢ <;> omega

/-- Where nothing is hidden, a fill is taken off what is displayed. -/
theorem visibleRemaining_fill (h : ¬ o.Hides) (hq : 0 ≤ q) :
    (o.fill q).visibleRemaining = o.visibleRemaining - q := by
  have h' := not_hides_fill h hq
  rw [Hides, not_not] at h h'
  rw [h', h, remaining_fill]

/-- Displayed quantities do not grow by trading. -/
theorem visibleRemaining_fill_le (hq : 0 ≤ q) :
    (o.fill q).visibleRemaining ≤ o.visibleRemaining := by
  rw [visibleRemaining, visibleRemaining, type_fill, displayQty_fill, remaining_fill]
  split_ifs <;> omega

/-- A fresh order displays what it counts into its level, as far as it has that much. -/
theorem visibleRemaining_fresh (hfilled : o.filledQuantity = 0)
    (hdisplay : o.type = .iceberg → 0 < o.displayQty) :
    o.visibleRemaining = min (BookView.entryDepth o) o.remaining := by
  have hrem : o.remaining = o.quantity := by rw [remaining, hfilled, sub_zero]
  by_cases hice : o.type = .iceberg
  · have hpos := hdisplay hice
    rw [visibleRemaining, if_pos ⟨hice, hpos⟩, BookView.entryDepth, if_pos hice]
    split_ifs <;> omega
  · rw [visibleRemaining, if_neg fun h => hice h.1, BookView.entryDepth, if_neg hice, hrem, min_self]

/-- A reduction takes what it takes off the remainder off the display, or nothing. -/
theorem visibleRemaining_shrink {n : Int} (h : n = o.remaining ∨ ¬ o.Hides)
    (hle : n ≤ o.remaining) :
    (o.shrink n).visibleRemaining = o.visibleRemaining - (o.remaining - n) := by
  rw [Hides, not_not] at h
  unfold visibleRemaining at h ⊢
  rw [type_shrink, displayQty_shrink, remaining_shrink]
  split_ifs at h ⊢ <;> omega

/-- An order with something left displays something. -/
theorem visibleRemaining_pos (h : 0 < o.remaining) : 0 < o.visibleRemaining := by
  unfold visibleRemaining
  split_ifs <;> omega

end Order

namespace BookView

variable {v v' w : BookView} {i i' m o : Order} {q t : Int} {s : Bool}
  {trades : List (Order × Int)} {n : NewOrder}

/-- A trade between orders that hide nothing keeps a counter balanced. -/
theorem Trade.balancedAt (h : v.Trade i m q v') (hv : v.Sound)
    (hb : v.BalancedAt Order.visibleRemaining s t) (hm : m.At s t → ¬ m.Hides)
    (hi : i.At s t → ¬ i.Hides) : v'.BalancedAt Order.visibleRemaining s t := by
  obtain ⟨hq, -, -⟩ := h.qty_bounds hv
  have hne := h.id_ne hv
  have hfill := hb.fill hv h.maker_at.1 h.taker hne
    (fun hat => Order.visibleRemaining_fill (hm hat) hq)
    fun hat => Order.visibleRemaining_fill (hi hat) hq
  rcases h.after_cases with ⟨-, hdrop⟩ | ⟨-, -, rfl⟩
  · refine hdrop.balancedAt (h.sound_fill hv) (h.maker_mem hv) hfill fun hat => ?_
    exact Or.inl (not_not.mp (Order.not_hides_fill (hm hat) hq))
  · exact hfill

/-- The incoming order will empty the level. -/
def Doomed (v : BookView) (i : Order) (t : Int) : Prop :=
  ¬ Better (!i.side.isBid) i.price t ∧ v.volumeTo (!i.side.isBid) t ≤ i.remaining

/-- Every level of the other side is balanced or will be emptied, and it will be emptied
if the incoming order reaches an order with a hidden part in it. -/
structure Cleared (v : BookView) (i : Order) : Prop where
  level : ∀ t, v.BalancedAt Order.visibleRemaining (!i.side.isBid) t ∨ v.Doomed i t
  reached : ∀ t front o, v.Queued (!i.side.isBid) t front o → o.Hides →
    ¬ Better (!i.side.isBid) i.price t →
    v.waiting (!i.side.isBid) t front < i.remaining → v.volumeTo (!i.side.isBid) t ≤ i.remaining

private theorem Trade.volumeTo_le (h : v.Trade i m q v') (hv : v.Facing i)
    (hle : v.volumeTo (!i.side.isBid) t ≤ i.remaining) :
    v'.volumeTo (!i.side.isBid) t ≤ (i.fill q).remaining := by
  obtain ⟨-, hqi, -⟩ := h.qty_bounds hv.sound
  rw [Order.remaining_fill]
  by_cases hb : Better (!i.side.isBid) t m.price
  · -- Above the best price there is nothing, before the trade or after it.
    have hzero : v.volumeTo (!i.side.isBid) t = 0 := by
      rw [h.maker_at.2.2] at hb
      exact hv.topped.volumeTo_eq_zero hb
    have hsame : v'.volumeTo (!i.side.isBid) t = v.volumeTo (!i.side.isBid) t := by
      rw [BookView.volumeTo, h.sumOver_remaining hv.sound ⟨fun _ _ => rfl, fun _ _ => rfl⟩]
      simp [hb, BookView.volumeTo]
    omega
  · rw [h.volumeTo hv.sound hb]
    omega

private theorem Trade.doomed (h : v.Trade i m q v') (hv : v.Facing i) (hd : v.Doomed i t) :
    v'.Doomed (i.fill q) t := ⟨hd.1, h.volumeTo_le hv hd.2⟩

/-- The level of a maker with a hidden part will be emptied. -/
theorem Trade.doomed_of_hides (h : v.Trade i m q v') (hv : v.Facing i)
    (hty : i.type = .limit ∨ i.type = .iceberg) (hc : v.Cleared i) (hides : m.Hides) :
    v.Doomed i m.price := by
  refine ⟨h.within hty, hc.reached _ [] m (h.queued_maker hv.sound) hides (h.within hty) ?_⟩
  rw [h.waiting_maker hv.topped]
  exact h.unfilled

/-- One trade keeps the levels of the other side balanced or doomed. -/
theorem Trade.cleared (h : v.Trade i m q v') (hv : v.Facing i)
    (hty : i.type = .limit ∨ i.type = .iceberg) (hc : v.Cleared i) : v'.Cleared (i.fill q) := by
  obtain ⟨hq, -, -⟩ := h.qty_bounds hv.sound
  refine ⟨fun t => ?_, fun t front o ho hides hwithin hahead => ?_⟩
  · rcases hc.level t with hb | hd
    · by_cases hm : m.At (!i.side.isBid) t ∧ m.Hides
      · obtain ⟨hat, hides⟩ := hm
        rw [← hat.2]
        exact Or.inr (h.doomed hv (h.doomed_of_hides hv hty hc hides))
      · exact Or.inl (h.balancedAt hv.sound hb (fun hat hides => hm ⟨hat, hides⟩)
          fun hat => absurd hat.1 (by simp))
    · exact Or.inr (h.doomed hv hd)
  · refine h.volumeTo_le hv ?_
    rcases h.queued_before hv.toOpposed ho with ⟨rfl, -, -, rfl⟩ | ⟨front', ho', hwait⟩
    · refine (h.doomed_of_hides hv hty hc fun hno => ?_).2
      exact Order.not_hides_fill (not_not.mpr hno) hq hides
    · refine hc.reached t front' o ho' hides hwithin ?_
      rw [Order.remaining_fill, Order.side_fill] at hahead
      omega

private theorem Matched.cleared (h : v.Matched i trades v' i') (hv : v.Facing i)
    (hty : i.type = .limit ∨ i.type = .iceberg) (hc : v.Cleared i) : v'.Cleared i' := by
  induction h with
  | stop _ => exact hc
  | step htrade _ ih => exact ih (htrade.facing hv) hty (htrade.cleared hv hty hc)

/-- A doomed level is empty when the loop has stopped. -/
theorem Stops.level_eq_nil (h : v.Stops i) (hv : v.Facing i) (hd : v.Doomed i t) :
    v.level (!i.side.isBid) t = [] := by
  rw [List.eq_nil_iff_forall_not_mem]
  intro o ho
  obtain ⟨ho, hat⟩ := mem_level.mp ho
  have hne : o.id ≠ i.id := by
    intro hid
    rw [hv.sound.eq_of_id ho hv.taker hid] at hat
    simpa using hat.1
  have hpos := hv.live o ho hne
  have hthere : ∀ {t'}, ¬ Better (!i.side.isBid) t' t →
      o.remaining ≤ v.volumeTo (!i.side.isBid) t' := fun hnb =>
    hv.sound.remaining_le_sumOver ho (decide_eq_true ⟨hat.1, hat.2 ▸ hnb⟩)
  have hrem : 0 < i.remaining := (hpos.trans_le (hthere (better_irrefl _ t))).trans_le hd.2
  have hzero := h.volumeTo_eq_zero hv hrem
  have hle := hthere hd.1
  omega

/-- The incoming order's own side stays balanced when it hides nothing. -/
theorem Matched.balancedAt_own (h : v.Matched i trades v' i') (hv : v.Sound)
    (hi : i.At i.side.isBid t → ¬ i.Hides)
    (hb : v.BalancedAt Order.visibleRemaining i.side.isBid t) :
    v'.BalancedAt Order.visibleRemaining i.side.isBid t := by
  induction h with
  | stop _ => exact hb
  | step htrade _ ih =>
    refine ih (htrade.sound hv) (fun hat => ?_) ?_
    · exact Order.not_hides_fill (hi hat) (htrade.qty_bounds hv).1
    · refine htrade.balancedAt hv hb (fun hat => ?_) hi
      exact absurd (hat.1.symm.trans htrade.maker_at.2.1) (by simp)

/-- Displayed quantities are not negative. -/
theorem Sound.visibleRemaining_nonneg (hv : v.Sound) (ho : o ∈ v.orders) :
    0 ≤ o.visibleRemaining := by
  have hnonneg := hv.nonneg o ho
  unfold Order.visibleRemaining
  split_ifs <;> omega

private theorem Sound.depth_nonneg (hv : v.Sound) : 0 ≤ v.depth Order.visibleRemaining s t := by
  apply List.sum_nonneg
  intro x hx
  obtain ⟨o, ho, rfl⟩ := List.mem_map.mp hx
  exact hv.visibleRemaining_nonneg (List.mem_filter.mp ho).1

private theorem Dropped.depth_le (h : v.Dropped o v') (hv : v.Sound) (ho : o ∈ v.orders) :
    v'.depth Order.visibleRemaining s t ≤ v.depth Order.visibleRemaining s t := by
  have hnonneg := hv.visibleRemaining_nonneg ho
  rw [h.depth hv ho]
  split_ifs <;> omega

/-- Trading does not add to the displayed depth. -/
theorem Trade.depth_le (h : v.Trade i m q v') (hv : v.Sound) :
    v'.depth Order.visibleRemaining s t ≤ v.depth Order.visibleRemaining s t := by
  obtain ⟨hq, -, -⟩ := h.qty_bounds hv
  have hne := h.id_ne hv
  have hm := Order.visibleRemaining_fill_le (o := m) hq
  have hi := Order.visibleRemaining_fill_le (o := i) hq
  have hfill : (v.fill m i q).depth Order.visibleRemaining s t ≤
      v.depth Order.visibleRemaining s t := by
    rw [depth_fill hv h.maker_at.1 h.taker hne]
    split_ifs <;> omega
  rcases h.after_cases with ⟨-, hdrop⟩ | ⟨-, -, rfl⟩
  · exact (hdrop.depth_le (h.sound_fill hv) (h.maker_mem hv)).trans hfill
  · exact hfill

private theorem Matched.depth_le (h : v.Matched i trades v' i') (hv : v.Sound) :
    v'.depth Order.visibleRemaining s t ≤ v.depth Order.visibleRemaining s t := by
  induction h with
  | stop _ => exact le_rfl
  | step htrade _ ih => exact (ih (htrade.sound hv)).trans (htrade.depth_le hv)

/-- The own level of an incoming order that hides nothing shows less by what it trades. -/
theorem Matched.depth_own (h : v.Matched i trades v' i') (hv : v.Sound)
    (hat : i.At i.side.isBid t) (hi : ¬ i.Hides) :
    v'.depth Order.visibleRemaining i.side.isBid t =
      v.depth Order.visibleRemaining i.side.isBid t - (i.remaining - i'.remaining) := by
  induction h with
  | stop _ => omega
  | @step v v' _ i _ m q _ htrade _ ih =>
    have hq := (htrade.qty_bounds hv).1
    have hmat : ¬ m.At i.side.isBid t := fun hm =>
      absurd (hm.1.symm.trans htrade.maker_at.2.1) (by simp)
    have hfill : (v.fill m i q).depth Order.visibleRemaining i.side.isBid t =
        v.depth Order.visibleRemaining i.side.isBid t - q := by
      rw [depth_fill hv htrade.maker_at.1 htrade.taker (htrade.id_ne hv), if_neg hmat, if_pos hat,
        Order.visibleRemaining_fill hi hq]
      omega
    have hstep : v'.depth Order.visibleRemaining i.side.isBid t =
        v.depth Order.visibleRemaining i.side.isBid t - q := by
      rcases htrade.after_cases with ⟨-, hdrop⟩ | ⟨-, -, rfl⟩
      · rw [hdrop.depth (htrade.sound_fill hv) (htrade.maker_mem hv),
          if_neg (show ¬ (m.fill q).At i.side.isBid t from hmat), sub_zero, hfill]
      · exact hfill
    have hrec := ih (htrade.sound hv) hat (Order.not_hides_fill hi hq)
    rw [Order.side_fill, Order.remaining_fill, hstep] at hrec
    omega

/-- The counter of the level is right, and within its 32 bits. -/
def Counted (v : BookView) (s : Bool) (t : Int) : Prop :=
  v.BalancedAt Order.visibleRemaining s t ∧ v.depth Order.visibleRemaining s t < 2 ^ 31

private theorem Counted.total_eq (h : v.Counted s t) (hv : v.Sound) :
    v.total s t = v.depth Order.visibleRemaining s t := by
  have hnonneg := hv.depth_nonneg (s := s) (t := t)
  rw [h.1, toInt32_eq_self (by omega) h.2]

private theorem Counted.drop (h : v.Counted s t) (hdrop : v.Dropped o v') (hv : v.Sound)
    (ho : o ∈ v.orders) (hw : o.At s t → ¬ o.Hides ∨ v'.level s t = []) : v'.Counted s t :=
  ⟨hdrop.balancedAt hv ho h.1 fun hat => (hw hat).imp_left not_not.mp,
    (hdrop.depth_le hv ho).trans_lt h.2⟩

/-- Entering an order that displays what it counts. -/
theorem Counted.place (h : v.Counted s t) {shown : Int} (hw : o.At s t → o.visibleRemaining = shown)
    (hroom : o.At s t → v.depth Order.visibleRemaining s t + shown < 2 ^ 31) :
    (v.place o shown).Counted s t := by
  refine ⟨h.1.place hw, ?_⟩
  rw [depth_place]
  by_cases hat : o.At s t
  · rw [if_pos hat, hw hat]
    exact hroom hat
  · rw [if_neg hat, add_zero]
    exact h.2

private theorem Settled.counted {type : OrderType} (h : Settled type w i v') (hw : w.Counted s t)
    (hsound : w.Sound) (hi : i ∈ w.orders) (hno : i.At s t → ¬ i.Hides ∨ v'.level s t = []) :
    v'.Counted s t := by
  rw [Settled] at h
  split at h
  · exact hw.drop h hsound hi hno
  · rwa [h]

private theorem Settled.level_eq_nil {type : OrderType} (h : Settled type w i v')
    (hw : w.level s t = []) : v'.level s t = [] := by
  rw [Settled] at h
  split at h
  · rw [h.level_eq, hw]
    rfl
  · rwa [h]

end BookView

namespace OrderBook.Shows

variable {b b' : OrderBook} {v v' w : BookView} {n : NewOrder} {i o : Order} {s : Bool} {t : Int}
  {trades : List (Order × Int)} {call : Call}

/-- Where there is no order the counter is right. -/
theorem counted_of_nil (h : b.Shows v) (hnil : v.level s t = []) : v.Counted s t := by
  have hdepth : v.depth Order.visibleRemaining s t = 0 := by
    rw [BookView.depth, BookView.sumOver,
      show v.orders.filter (fun o => decide (o.At s t)) = [] from hnil]
    rfl
  refine ⟨?_, by rw [hdepth]; decide⟩
  rw [BookView.BalancedAt, hdepth, h.total_of_nil hnil, toInt32_zero]

private theorem shown (h : b.Shows v) (s : Bool) (t : Int) :
    b.shown s t = v.depth Order.visibleRemaining s t := by
  rw [OrderBook.shown, h.queueOf]
  rfl

/-- The requirement on a new order prepares the other side for the matching loop. -/
theorem cleared (h : b.Shows v) (hc : ∀ s t, v.Counted s t)
    (hty : n.type ≠ .market) (hsafe : b.EntrySafe n) : (v.enter n.order).Cleared n.order := by
  refine ⟨fun t => Or.inl ?_, fun t front m hm hides hwithin hwait => ?_⟩
  · exact (hc _ t).1.place fun hat => absurd hat.1 (by simp)
  · rw [BookView.Queued, BookView.level_enter_other] at hm
    rw [BookView.waiting, BookView.volumeBefore_enter, ← BookView.waiting, ← h.ahead hm,
      n.remaining_order] at hwait
    rw [BookView.volumeTo_enter, n.side_order, n.remaining_order, ← h.volumeTo]
    rw [n.side_order, n.price_order hty] at hwithin
    obtain ⟨hmem, hms, rfl⟩ := BookView.Queued.mem hm
    rw [n.side_order] at hms
    exact hsafe.makers m (h.mem_ordersOf.mpr ⟨hmem, hms⟩) hides hwithin hwait

/-- A fresh order shows what it counts as far as the requirement lets it. -/
theorem visible_entry (hacc : v.Accepts n) :
    n.order.visibleRemaining = min (BookView.entryDepth n.order) n.quantity := by
  rw [Order.visibleRemaining_fresh n.filledQuantity_order, n.remaining_order]
  intro hice
  have hty := n.type_order_eq_iceberg.mp hice
  rw [n.displayQty_order hty]
  exact hacc.valid.displayQty_pos hty

/-- An order that does not cross is counted. -/
theorem counted_rested (h : b.Shows v) (hv : v.Regular) (hc : ∀ s t, v.Counted s t)
    (hty : n.type ≠ .market) (hacc : v.Accepts n)
    (hcross : ¬ v.Crosses n.side n.price) (hsafe : b.EntrySafe n) (s : Bool) (t : Int) :
    (v.enter n.order).Counted s t := by
  have hvis := visible_entry hacc
  have hpos := hacc.valid.quantity_pos
  have hzero : b.volumeTo (!n.side.isBid) n.price = 0 := by
    rw [hv.crosses_iff hsafe.side] at hcross
    have hnonneg : 0 ≤ v.volumeTo (!n.side.isBid) n.price := hv.sound.sumOver_nonneg _
    rw [h.volumeTo]
    omega
  have hroom := hsafe.room (by omega)
  have hle : BookView.entryDepth n.order ≤ n.quantity := by
    rcases hsafe.display with heq | ⟨-, hle⟩ | ⟨hle, -⟩ <;> omega
  rw [hzero, sub_zero, min_eq_left hle, h.shown] at hroom
  refine (hc s t).place (fun _ => by omega) ?_
  rintro ⟨hs, ht⟩
  rw [n.side_order] at hs
  rw [n.price_order hty] at ht
  rwa [← hs, ← ht]

section Matched

variable (h : b.Shows v) (hv : v.Regular) (hc : ∀ s t, v.Counted s t)
  (hty : n.type ≠ .market) (hacc : v.Accepts n)
  (hmatched : (v.enter n.order).Matched n.order trades w i)
  (hsettled : BookView.Settled n.type w i v') (hsafe : b.EntrySafe n)

include hv hc hacc hmatched hsettled

/-- Away from its own level an incoming order does not spoil what the loop leaves balanced. -/
theorem counted_elsewhere (hat : ¬ n.order.At s t)
    (hb : w.BalancedAt Order.visibleRemaining s t) : v'.Counted s t := by
  have hfacing := hv.facing hacc
  have hw := hmatched.facing hfacing
  have henter : (v.enter n.order).Counted s t :=
    (hc s t).place (fun hat' => absurd hat' hat) fun hat' => absurd hat' hat
  obtain ⟨filled, rfl⟩ := hmatched.taker
  exact hsettled.counted ⟨hb, (hmatched.depth_le hfacing.sound).trans_lt henter.2⟩ hw.sound
    hw.taker fun hat' => absurd hat' hat

include h hty hsafe

/-- On the other side a level is balanced, because a doomed one is empty by now. -/
theorem counted_other (hnil : v'.level (!n.side.isBid) t ≠ []) :
    v'.Counted (!n.side.isBid) t := by
  have hfacing := hv.facing hacc
  have hcleared := hmatched.cleared hfacing (n.limited_order hty) (h.cleared hc hty hsafe)
  have hside' : i.side = n.side := by
    obtain ⟨filled, rfl⟩ := hmatched.taker
    exact n.side_order
  refine counted_elsewhere hv hc hacc hmatched hsettled (fun hat => ?_) ?_
  · exact absurd hat.1 (by simp)
  · rcases hcleared.level t with hb | hd
    · rwa [hside'] at hb
    · have hempty := hmatched.stops.level_eq_nil (hmatched.facing hfacing) hd
      rw [hside'] at hempty
      exact absurd (hsettled.level_eq_nil hempty) hnil

/-- The own level of an incoming order that trades is counted. -/
theorem counted_own (hcross : v.Crosses n.side n.price) (hat : n.order.At s t)
    (hnil : v'.level s t ≠ []) : v'.Counted s t := by
  have hfacing := hv.facing hacc
  have hw := hmatched.facing hfacing
  have hrem := hmatched.remaining_eq hfacing (n.limited_order hty)
  have hvis := visible_entry hacc
  have hpos := hacc.valid.quantity_pos
  rw [BookView.volumeTo_enter, n.side_order, n.price_order hty, n.remaining_order,
    ← h.volumeTo] at hrem
  rw [hv.crosses_iff hsafe.side, ← h.volumeTo] at hcross
  obtain ⟨rfl, rfl⟩ := hat
  rcases hsafe.display with heq | ⟨hzero, -⟩ | ⟨hfilled, hempty⟩
  · have hhides : ¬ n.order.Hides := by
      rw [Order.Hides, not_not, hvis, heq, n.remaining_order, min_self]
    have hdepth := hmatched.depth_own hfacing.sound ⟨rfl, rfl⟩ hhides
    have hroom := hsafe.room
    have hbound := (hc n.order.side.isBid n.order.price).2
    rw [BookView.enter, BookView.depth_place, if_pos ⟨rfl, rfl⟩, hvis, heq, min_self,
      n.remaining_order] at hdepth
    rw [h.shown, heq] at hroom
    rw [n.side_order, n.price_order hty] at hdepth hbound ⊢
    have hbalanced : w.BalancedAt Order.visibleRemaining n.order.side.isBid n.price :=
      hmatched.balancedAt_own hfacing.sound (fun _ => hhides)
        ((hc _ _).1.place fun _ => by rw [hvis, heq, min_self])
    rw [n.side_order] at hbalanced
    have hbits : w.depth Order.visibleRemaining n.side.isBid n.price < 2 ^ 31 := by omega
    obtain ⟨filled, rfl⟩ := hmatched.taker
    rw [Order.remaining_fill, n.remaining_order] at hrem
    refine hsettled.counted ⟨hbalanced, hbits⟩ hw.sound hw.taker fun _ => Or.inl ?_
    exact Order.not_hides_fill hhides (by omega)
  · omega
  · -- The order is filled and leaves, and its level with it.
    rw [BookView.Settled, if_pos (by simp [hty]; omega)] at hsettled
    rw [n.side_order, BookView.level_removed hv.sound hacc hmatched hsettled,
      n.price_order hty, ← h.queueOf] at hnil
    exact absurd hempty hnil

end Matched

/-- A detachable order leaves the counters right. -/
theorem counted_drop (h : b.Shows v) (hc : ∀ s t, v.Counted s t) (ho : o ∈ v.orders)
    (hdrop : v.Dropped o v') (hdet : b.Detachable o) (s : Bool) (t : Int) : v'.Counted s t := by
  refine (hc s t).drop hdrop h.sound ho ?_
  rintro ⟨rfl, rfl⟩
  refine hdet.imp_right fun halone => ?_
  rw [h.queueOf] at halone
  rw [hdrop.level_eq, halone, List.filter_cons_of_neg (by simp)]
  rfl

/-- A modify that meets the requirement leaves the counters right. -/
theorem counted_modified (h : b.Shows v) (hc : ∀ s t, v.Counted s t) (ho : o ∈ v.orders)
    {price qty : Int} (hle : qty ≤ o.remaining)
    (hmod : v.Modified o price qty v')
    (hsafe : if price = o.price then qty = o.remaining ∨ ¬ o.Hides
      else b.Detachable o ∧ BookView.entryDepth (BookView.reentry o price qty) ≤ qty ∧
        b.shown o.side.isBid price + BookView.entryDepth (BookView.reentry o price qty) < 2 ^ 31)
    (s : Bool) (t : Int) : v'.Counted s t := by
  cases hmod with
  | inPlace hprice =>
    rw [if_pos hprice] at hsafe
    have hvis := Order.visibleRemaining_shrink hsafe hle
    refine ⟨(hc s t).1.shrink h.sound ho fun _ => hvis, ?_⟩
    have hbound := (hc s t).2
    rw [BookView.depth_shrink h.sound ho, hvis]
    split_ifs <;> omega
  | @moved w hprice hdrop =>
    rw [if_neg hprice] at hsafe
    obtain ⟨hdet, hfits, hroom⟩ := hsafe
    have hw := h.counted_drop hc ho hdrop hdet s t
    have hvis : (BookView.reentry o price qty).visibleRemaining =
        BookView.entryDepth (BookView.reentry o price qty) := by
      rw [Order.visibleRemaining_fresh, BookView.remaining_reentry, min_eq_left hfits]
      · unfold BookView.reentry
        split <;> rfl
      · intro hice
        have hice' : o.type = .iceberg := by
          by_contra hno
          rw [BookView.reentry, if_neg hno] at hice
          cases hice
        rw [BookView.reentry, if_pos hice']
        exact (h.display ho hice' : 0 < o.displayQty)
    refine hw.place (fun _ => hvis) ?_
    rintro ⟨hs, ht⟩
    rw [BookView.side_reentry] at hs
    rw [BookView.price_reentry] at ht
    rw [hdrop.depth h.sound ho, if_neg fun hat => hprice (ht.trans hat.2.symm), sub_zero, ← hs,
      ← ht, ← h.shown]
    exact hroom

/-- One call that meets the requirement keeps the counters right. -/
theorem counted_step (h : b.Shows v) (h' : b'.Shows v') (hv : v.Regular)
    (hc : ∀ s t, v.Counted s t) (hcall : call.Rests) (hsafe : DepthSafe b call)
    (heffect : v.Effect call trades v') (s : Bool) (t : Int) : v'.Counted s t := by
  cases heffect with
  | refused _ => exact hc s t
  | rested hacc hty hcross =>
    exact h.counted_rested hv hc hty hacc hcross (hsafe (h.admits_iff.mpr hacc)) s t
  | @matched n _ w _ i hacc hcross hmatched hsettled =>
    have hty : n.type ≠ .market := hcall.noMarket.not_market n rfl
    have hentry := hsafe (h.admits_iff.mpr hacc)
    by_cases hnil : v'.level s t = []
    · exact h'.counted_of_nil hnil
    by_cases hat : n.order.At s t
    · exact h.counted_own hv hc hty hacc hmatched hsettled hentry (hcross hty) hat hnil
    by_cases hs : s = !n.side.isBid
    · rw [hs] at hnil ⊢
      exact h.counted_other hv hc hty hacc hmatched hsettled hentry hnil
    · have hs : s = n.order.side.isBid := by
        rw [n.side_order]
        exact Bool.ne_not.mp hs
      refine counted_elsewhere hv hc hacc hmatched hsettled hat ?_
      rw [hs] at hat ⊢
      exact hmatched.balancedAt_own (hv.sound.enter hacc) (fun hat' => absurd hat' hat)
        ((hc _ _).1.place fun hat' => absurd hat' hat)
  | cancelled ho hdrop =>
    exact h.counted_drop hc ho hdrop (hsafe _ (h.orderOf_eq_some_iff.mpr ⟨ho, rfl⟩)) s t
  | notFound _ => exact hc s t
  | modified ho hpos hle hmod =>
    exact h.counted_modified hc ho hle hmod
      (hsafe _ (h.orderOf_eq_some_iff.mpr ⟨ho, rfl⟩) hpos hle) s t
  | unmodified _ => exact hc s t

/-- Where the counters are right, what is published is what is displayed. -/
theorem total_eq_shown (h : b.Shows v) (hc : ∀ s t, v.Counted s t) {level : PriceLevel}
    (hl : (b.levels s).lookup t = some level) : level.totalQuantity = b.shown s t := by
  have hlevel := h.levelOf s t
  rw [OrderBook.levelOf, hl, Option.map_some] at hlevel
  split at hlevel
  · cases hlevel
  · obtain ⟨htotal, -⟩ := Prod.mk.inj (Option.some.inj hlevel)
    rw [htotal, h.shown]
    exact (hc s t).total_eq h.sound

/-- Where nothing that is filled stays, a level displays something. -/
theorem shown_pos (h : b.Shows v) (hv : v.Regular) {level : PriceLevel}
    (hl : (b.levels s).lookup t = some level) : 0 < b.shown s t := by
  have hkey : t ∈ (b.levels s).keys := by
    rw [← AList.mem_keys, ← AList.lookup_isSome, hl]
    rfl
  obtain ⟨o, ho⟩ := List.exists_mem_of_ne_nil _ (h.mem_keys_iff.mp hkey)
  rw [OrderBook.shown, h.queueOf]
  refine (Order.visibleRemaining_pos (hv.live o (BookView.mem_level.mp ho).1)).trans_le ?_
  refine List.single_le_sum (fun x hx => ?_) _ (List.mem_map_of_mem ho)
  obtain ⟨y, hy, rfl⟩ := List.mem_map.mp hx
  exact hv.sound.visibleRemaining_nonneg (BookView.mem_level.mp hy).1

end OrderBook.Shows

/-- An array padded with zeros holds the published quantities in front. -/
theorem quantity_rightpad_pos {depth : List DepthLevel} (h : ∀ d ∈ depth, 0 < d.quantity)
    {k size : Nat} (hk : k < depth.length) :
    0 < ((depth.map (·.quantity)).rightpad size 0).getD k 0 := by
  have hk' : k < (depth.map (·.quantity)).length := by simpa using hk
  rw [List.rightpad, List.getD_eq_getElem?_getD, List.getElem?_append_left hk',
    List.getElem?_eq_getElem hk', List.getElem_map]
  exact h _ (List.getElem_mem hk)

/-- In every state reached by limit and iceberg orders, cancels and modifies that take off
the counters what they take off the display, published depth is what is displayed. -/
theorem run_displaysDepth (fees : FeeSchedule) (calls : List (HashOrder × Call))
    (hcalls : ∀ c ∈ calls, c.2.Rests)
    (hsafe : (MatchingEngine.init fees).RunMeets DepthSafe calls) :
    ∃ e, (MatchingEngine.init fees).run calls = some e ∧ e.DisplaysDepth := by
  obtain ⟨e, v, hrun, hshows, hv, hc⟩ := MatchingEngine.run_rule
    (fun v => v.Regular ∧ ∀ s t, v.Counted s t)
    (fun b call => call.Rests ∧ DepthSafe b call)
    (fun h hi hok heffect h' => ⟨heffect.regular_of_admits h hi.1 hok.1 hok.2.named,
      h.counted_step h' hi.1 hi.2 hok.1 hok.2 heffect⟩)
    (e := MatchingEngine.init fees) OrderBook.shows_init
    ⟨BookView.regular_empty, fun _ _ => OrderBook.shows_init.counted_of_nil rfl⟩
    (hsafe.and_forall hcalls)
  have hdepth : ∀ ord s count, ∀ d ∈ e.book.getDepth ord s count, 0 < d.quantity := by
    intro ord s count d hd
    obtain ⟨level, hl, hq⟩ := lookup_of_mem_getDepth hd
    rw [hq, hshows.total_eq_shown hc hl]
    exact hshows.shown_pos hv hl
  exact ⟨e, hrun, fun s t level hl => hshows.total_eq_shown hc hl, hdepth,
    fun ord k hk => quantity_rightpad_pos (hdepth ord true _) hk,
    fun ord k hk => quantity_rightpad_pos (hdepth ord false _) hk⟩

/-- An iceberg beside a limit order, both taken by one bid. -/
theorem run_displaysDepth_swept_level :
    ∃ e, (MatchingEngine.init {}).run
        [(HashOrder.recent, .newOrder ⟨1, .ask, .iceberg, 103, 10, 0, 4⟩),
          (HashOrder.recent, .newOrder ⟨2, .ask, .limit, 103, 5, 0, 0⟩),
          (HashOrder.recent, .newOrder ⟨3, .bid, .limit, 103, 15, 0, 0⟩)] = some e ∧
      e.DisplaysDepth := by
  refine run_displaysDepth {} _ (by decide) ⟨fun _ => ⟨by decide, by decide, by decide, by decide⟩, ?_⟩
  intro e he
  obtain rfl := Option.some.inj he
  refine ⟨fun _ => ⟨by decide, by decide, by decide, by decide⟩, fun e he => ?_⟩
  obtain rfl := Option.some.inj he
  exact ⟨fun _ => ⟨by decide, by decide, by decide, by decide⟩, fun _ _ => trivial⟩

/-- A bid for 3 of an iceberg that shows 4 of 10 leaves 7, of which 4 are displayed, but the
level counts 1; another bid for 3 leaves a count of -2. -/
theorem iceberg_fill_miscounts :
    (∀ c ∈ [(HashOrder.recent, Call.newOrder ⟨1, .ask, .iceberg, 103, 10, 0, 4⟩),
        (HashOrder.recent, .newOrder ⟨2, .bid, .limit, 103, 3, 0, 0⟩),
        (HashOrder.recent, .newOrder ⟨3, .bid, .limit, 103, 3, 0, 0⟩)], c.2.Rests) ∧
      ∃ e, (MatchingEngine.init {}).run
          [(HashOrder.recent, .newOrder ⟨1, .ask, .iceberg, 103, 10, 0, 4⟩),
            (HashOrder.recent, .newOrder ⟨2, .bid, .limit, 103, 3, 0, 0⟩),
            (HashOrder.recent, .newOrder ⟨3, .bid, .limit, 103, 3, 0, 0⟩)] = some e ∧
        e.book.levelOf false 103 = some (-2, 1) ∧ e.book.shown false 103 = 4 ∧
        ¬ e.DisplaysDepth := by
  refine ⟨by decide, _, rfl, by decide, by decide, fun hout => ?_⟩
  exact absurd (hout.levels false 103 _ rfl) (by decide)

end LiquidityArena

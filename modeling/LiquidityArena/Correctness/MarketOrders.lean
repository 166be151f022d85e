import LiquidityArena.View.Observe

/-!
# What a market order leaves behind

A market order is entered at the worst price of its side, matched, and removed
again only when some of it is left. It leaves its own side untouched exactly when
the other side cannot fill it completely; a completely filled one stays in the
book, at a price that later orders mistake for the best one.
-/

namespace LiquidityArena

open OrderBook

/-- The queues of a side are worked off in price-time order: every fill is with the front
order of the best price, until the quantity is exhausted or no order is left. -/
inductive Swept (s : Bool) : (Int → List Order) → Int → List (Order × Int) →
    (Int → List Order) → Prop
  | done {queue : Int → List Order} {qty : Int} : qty = 0 ∨ (∀ t, queue t = []) →
      Swept s queue qty [] queue
  | fill {queue queue' : Int → List Order} {qty q : Int} {m : Order} {rest : List Order}
      {fills : List (Order × Int)} : queue m.price = m :: rest →
      (∀ t, queue t ≠ [] → ¬ Better s t m.price) → 0 < q → q ≤ qty → q ≤ m.remaining →
      Swept s (Function.update queue m.price (if q = m.remaining then rest else m.fill q :: rest))
        (qty - q) fills queue' →
      Swept s queue qty ((m, q) :: fills) queue'

/-- What a market order should do: work off the other side, and leave neither itself nor
any trace on its own side or in the pool. -/
structure MarketOutcome (b : OrderBook) (n : NewOrder) (fees : FeeSchedule)
    (fills : List FillMsg) (b' : OrderBook) : Prop where
  swept : ∃ trades, fills = tradeMsgs fees n.id trades ∧
    Swept (!n.side.isBid) (b.queueOf (!n.side.isBid)) n.quantity trades
      (b'.queueOf (!n.side.isBid))
  gone : b'.getOrder n.id = none
  queues : ∀ t, b'.queueOf n.side.isBid t = b.queueOf n.side.isBid t
  levels : ∀ t, b'.levelOf n.side.isBid t = b.levelOf n.side.isBid t
  best : b'.best n.side.isBid = b.best n.side.isBid
  slots : b'.pool.allocatedCount =
    (b.ordersOf n.side.isBid).length + (b'.ordersOf (!n.side.isBid)).length

namespace BookView

variable {v v' w : BookView} {i i' m : Order} {q : Int} {trades : List (Order × Int)}
  {n : NewOrder}

/-- A market order stops when it is filled or the other side is empty. -/
theorem Stops.market (h : v.Stops i) (hv : v.Facing i) (hty : i.type = .market) :
    i.remaining = 0 ∨ v.side (!i.side.isBid) = [] := by
  have hnonneg := hv.sound.nonneg i hv.taker
  rcases h with hle | hinv | hinc | hnil
  · exact Or.inl (le_antisymm hle hnonneg)
  · exact Or.inr ((best_eq_invalid_iff hv.anchored hv.topped).mp hinv)
  · rcases hinc.1 with hl | hl <;> simp [hty] at hl
  · have hinv := hv.anchored.resolve_right fun hocc => level_ne_nil_iff.mpr hocc hnil
    exact Or.inr ((best_eq_invalid_iff hv.anchored hv.topped).mp hinv)

/-- The loop of a market order works off the other side. -/
theorem Matched.swept (h : v.Matched i trades v' i') (hv : v.Facing i) (hty : i.type = .market) :
    Swept (!i.side.isBid) (v.level (!i.side.isBid)) i.remaining trades
      (v'.level (!i.side.isBid)) := by
  induction h with
  | @stop v i hstop =>
    refine .done ((hstop.market hv hty).imp_right fun hnil t => ?_)
    rw [List.eq_nil_iff_forall_not_mem]
    intro o ho
    obtain ⟨ho, hat⟩ := mem_level.mp ho
    exact absurd (mem_side.mpr ⟨ho, hat.1⟩) (by simp [hnil])
  | @step v v' v'' i i' m q trades htrade _ ih =>
    obtain ⟨rest, hrest, hlevel⟩ := htrade.level_other hv.sound
    obtain ⟨-, hqi, hqm⟩ := htrade.qty_bounds hv.sound
    have hupdate : v'.level (!i.side.isBid) = Function.update (v.level (!i.side.isBid)) m.price
        (if q = m.remaining then rest else m.fill q :: rest) := by
      funext t
      rw [hlevel, Function.update_apply]
    have hrec := ih (htrade.facing hv) hty
    rw [Order.side_fill, Order.remaining_fill, hupdate] at hrec
    refine .fill hrest (fun t hne => ?_) (htrade.qty_pos_of_facing hv) hqi hqm hrec
    rw [htrade.maker_at.2.2]
    exact (hv.topped t (level_ne_nil_iff.mp hne)).2

/-- What remains of the incoming order and of the other side shrink together. -/
theorem Matched.volume (h : v.Matched i trades v' i') (hv : v.Sound) :
    v'.volume (!i.side.isBid) - i'.remaining = v.volume (!i.side.isBid) - i.remaining := by
  induction h with
  | stop _ => rfl
  | step htrade _ ih =>
    have hrec := ih (htrade.sound hv)
    rw [Order.side_fill, htrade.volume hv, Order.remaining_fill] at hrec
    omega

/-- A market order is left with something exactly when the other side cannot fill it. -/
theorem Matched.unfilled_iff (h : v.Matched i trades v' i') (hv : v.Facing i)
    (hty : i.type = .market) : 0 < i'.remaining ↔ v.volume (!i.side.isBid) < i.remaining := by
  have hbalance := h.volume hv.sound
  have hnonneg : 0 ≤ v'.volume (!i.side.isBid) := (h.facing hv).sound.sumOver_nonneg _
  obtain ⟨filled, rfl⟩ := h.taker
  constructor
  · intro hpos
    rcases h.stops.market (h.facing hv) hty with hzero | hnil
    · omega
    · have hempty : v'.volume (!i.side.isBid) = 0 := by
        have hside : v'.orders.filter (fun o => decide (o.side.isBid = !i.side.isBid)) = [] := hnil
        rw [BookView.volume, sumOver, hside]
        rfl
      omega
  · intro hlt
    omega

/-- The depth of the own side after the loop: the level of the incoming order has lost what
it traded. -/
theorem Matched.total_own (h : v.Matched i trades v' i') (t : Int) :
    (¬ i.At i.side.isBid t → v'.total i.side.isBid t = v.total i.side.isBid t) ∧
      (i.At i.side.isBid t → toInt32 (v'.total i.side.isBid t) =
        toInt32 (v.total i.side.isBid t - (i.remaining - i'.remaining))) := by
  induction h with
  | stop _ => exact ⟨fun _ => rfl, fun _ => by rw [sub_self, sub_zero]⟩
  | step htrade _ ih =>
    have htotal := htrade.total_own t
    refine ⟨fun hat => ?_, fun hat => ?_⟩
    · rw [if_neg hat] at htotal
      exact (ih.1 hat).trans htotal
    · rw [if_pos hat] at htotal
      have hrec := ih.2 hat
      rw [Order.side_fill, htotal, Order.remaining_fill, toInt32_toInt32_sub] at hrec
      rw [hrec]
      congr 1
      omega

/-- The loop does not touch the best price of the incoming order's own side. -/
theorem Matched.best_own (h : v.Matched i trades v' i') :
    v'.best i.side.isBid = v.best i.side.isBid := by
  induction h with
  | stop _ => rfl
  | @step v v' _ i _ m q _ htrade _ ih =>
    refine ih.trans ?_
    rcases htrade.after_cases with ⟨-, hdrop⟩ | ⟨-, -, rfl⟩
    · have hbest := hdrop.best i.side.isBid
      rwa [if_neg] at hbest
      rintro ⟨hside, -⟩
      have hm := htrade.maker_at.2.1
      rw [show m.side = Side.ofBid i.side.isBid from hside] at hm
      simp at hm
    · rfl

section Killed

variable (hv : v.Regular) (hacc : v.Accepts n) (hside : n.side.Named)
  (hmatched : (v.enter n.order).Matched n.order trades w i) (hdrop : w.Dropped i v')

include hv hacc hmatched hdrop

/-- A removed market order leaves the depth of its side as it was. -/
theorem total_killed (hty : n.type = .market)
    (hwrap : ∀ t, toInt32 (v.total n.side.isBid t) = v.total n.side.isBid t)
    (hnil : ∀ t, v.level n.side.isBid t = [] → v.total n.side.isBid t = 0) (t : Int) :
    v'.total n.side.isBid t = v.total n.side.isBid t := by
  have hlevel := level_removed hv.sound hacc hmatched hdrop t
  have hown := hmatched.total_own t
  obtain ⟨filled, rfl⟩ := hmatched.taker
  have hdepth : entryDepth n.order = n.quantity := by
    rw [entryDepth, if_neg (by simp [n.type_order, hty]), n.quantity_order]
  have hentered : (v.enter n.order).total n.side.isBid t =
      if n.order.At n.side.isBid t then toInt32 (v.total n.side.isBid t + n.quantity)
      else v.total n.side.isBid t := by
    rw [← hdepth]
    rfl
  rw [n.side_order, hentered] at hown
  rw [hdrop.total]
  by_cases hat : n.order.At n.side.isBid t
  · rw [if_pos (show (n.order.fill filled).At n.side.isBid t from hat), hlevel]
    by_cases hempty : v.level n.side.isBid t = []
    · rw [if_pos hempty, hnil t hempty]
    · have htotal := hown.2 hat
      rw [if_pos hat, n.remaining_order, toInt32_toInt32_sub] at htotal
      rw [if_neg hempty, ← toInt32_toInt32_sub, htotal, toInt32_toInt32_sub]
      conv_rhs => rw [← hwrap t]
      congr 1
      omega
  · have htotal := hown.1 hat
    rw [if_neg hat] at htotal
    rw [if_neg (show ¬ (n.order.fill filled).At n.side.isBid t from hat), htotal]

include hside

/-- A removed market order leaves the best price of its side as it was. -/
theorem best_killed : v'.best n.side.isBid = v.best n.side.isBid := by
  have hlevel := level_removed hv.sound hacc hmatched hdrop
  have hocc : ∀ t, v'.Occupied n.side.isBid t ↔ v.Occupied n.side.isBid t := fun t => by
    rw [← level_ne_nil_iff, hlevel, level_ne_nil_iff]
  have hown := hmatched.best_own
  rw [n.side_order] at hown
  obtain ⟨filled, rfl⟩ := hmatched.taker
  have hbest := hdrop.best n.side.isBid
  split at hbest
  · -- The rescan runs over a side without orders at the sentinel.
    have hfree : ∀ o ∈ v'.side n.side.isBid, o.price ≠ invalidPrice := by
      intro o ho
      rw [side_removed hv.sound hacc hmatched hdrop] at ho
      exact (hv.prices o (mem_side.mp ho).1).ne'
    obtain ⟨hinv, htop⟩ := hbest.exact hfree
    refine (hv.topped _).best_unique (hv.anchored _) (fun t ht => ?_)
      (hbest.mem.imp_right occupied_iff.mpr) hocc
    obtain ⟨o, ho, rfl⟩ := occupied_iff.mp ht
    exact ⟨fun he => by simp [hinv he] at ho, htop o ho⟩
  · rename_i hkeep
    rw [hbest, hown]
    refine if_neg ?_
    rintro ⟨-, hraise⟩
    have hentered : (v.enter n.order).best n.side.isBid = n.order.price :=
      if_pos ⟨by rw [n.side_order], hraise⟩
    have hlevel' : v.level n.side.isBid n.order.price ≠ [] := by
      rw [← hlevel]
      exact fun hnil => hkeep ⟨(n.side_order).trans hside.eq_ofBid,
        (hentered.symm.trans hown.symm), hnil⟩
    obtain ⟨hne, hnb⟩ := hv.topped _ _ (level_ne_nil_iff.mp hlevel')
    exact hraise.elim hne hnb

omit hside hacc in
/-- A removed market order of an unnamed side leaves its price behind as the best one. -/
theorem best_killed_unnamed (hty : n.type = .market) (hside : ¬ n.side.Named) :
    v'.best n.side.isBid = invalidPrice := by
  have hprice : n.order.price = invalidPrice :=
    n.price_order_market hty fun hbid => hside (Or.inl hbid)
  have hs : n.side.isBid = false := Side.isBid_of_not_named hside
  have hown := hmatched.best_own
  rw [n.side_order] at hown
  obtain ⟨filled, rfl⟩ := hmatched.taker
  have hbest := hdrop.best n.side.isBid
  rw [if_neg, hown] at hbest
  · rw [hbest, enter, place]
    dsimp only
    split_ifs with hraise
    · exact hprice
    · -- Only an empty side keeps its best price from the lowest one there is.
      by_contra hne
      obtain ⟨o, ho, hat⟩ := (hv.anchored n.side.isBid).resolve_left hne
      refine hraise ⟨by rw [n.side_order], Or.inr ?_⟩
      rw [hprice, ← hat.2, hs]
      exact hv.prices o ho
  · rintro ⟨hnamed, -⟩
    rw [Order.side_fill, n.side_order] at hnamed
    rw [hnamed] at hside
    exact hside (by cases n.side.isBid <;> simp [Side.ofBid])

omit hside in
/-- A removed market order leaves the best price of its side as it was exactly if it is a bid or an
ask, or alone on its side. -/
theorem best_killed_iff (hty : n.type = .market) :
    v'.best n.side.isBid = v.best n.side.isBid ↔ n.side.Named ∨ v.side n.side.isBid = [] := by
  by_cases hside : n.side.Named
  · exact iff_of_true (best_killed hv hacc hside hmatched hdrop) (Or.inl hside)
  · rw [best_killed_unnamed hv hmatched hdrop hty hside, or_iff_right hside, eq_comm]
    exact best_eq_invalid_iff (hv.anchored _) (hv.topped _)

/-- A removed market order leaves a regular book. -/
theorem regular_killed : v'.Regular := by
  have hbest := best_killed hv hacc hside hmatched hdrop
  have hocc : ∀ t, v'.Occupied n.side.isBid t ↔ v.Occupied n.side.isBid t := fun t => by
    rw [← level_ne_nil_iff, level_removed hv.sound hacc hmatched hdrop, level_ne_nil_iff]
  have hfacing := hv.facing hacc
  have hw := hmatched.facing hfacing
  have hsides : w.All (·.side.Named) := by
    refine hmatched.all hfacing.sound id id fun o ho => ?_
    rcases List.mem_append.mp ho with ho | ho
    · exact hv.sides o ho
    · rw [List.mem_singleton.mp ho, n.side_order]
      exact hside
  have hprices : w.All fun o => o.id = n.id ∨ invalidPrice < o.price := by
    refine hmatched.all hfacing.sound id id fun o ho => ?_
    rcases List.mem_append.mp ho with ho | ho
    · exact Or.inr (hv.prices o ho)
    · exact Or.inl (by rw [List.mem_singleton.mp ho, n.id_order])
  obtain ⟨filled, rfl⟩ := hmatched.taker
  have hprices' : v'.All (invalidPrice < ·.price) := by
    intro o ho
    obtain ⟨ho, hne⟩ := hdrop.mem_iff.mp ho
    exact (hprices o ho).resolve_left (by simpa using hne)
  have hother : ∀ s, s ≠ n.side.isBid → s = !n.side.isBid := by
    intro s
    cases s <;> cases n.side.isBid <;> simp
  have hside' : (!(n.order.fill filled).side.isBid) = !n.side.isBid := by simp
  have hanchored := hw.anchored
  have htopped := hw.topped
  rw [hside'] at hanchored htopped
  refine ⟨⟨hdrop.sound hw.sound, fun o ho => hsides o (hdrop.mem_iff.mp ho).1, hprices',
    fun s => ?_, fun s => ?_⟩, fun o ho => ?_⟩
  · by_cases hs : s = n.side.isBid
    · rw [hs, Anchored, hbest, hocc]
      exact hv.anchored _
    · rw [hother s hs]
      exact hdrop.anchored (fun x hx => hw.sound.eq_of_id hx hw.taker)
        (fun _ _ _ => hsides _ hw.taker) hanchored
  · by_cases hs : s = n.side.isBid
    · intro t ht
      rw [hs, hocc] at ht
      rw [hs, hbest]
      exact hv.topped _ t ht
    · rw [hother s hs]
      refine hdrop.topped htopped ?_
      rintro ⟨o, ho, hat⟩
      exact (hprices' o ho).ne' hat.2
  · obtain ⟨ho, hne⟩ := hdrop.mem_iff.mp ho
    exact hw.live o ho hne

end Killed

end BookView

/-- The book would take the order: it asks for something, its id is free and so is a slot. -/
def OrderBook.Takes (b : OrderBook) (n : NewOrder) : Prop :=
  0 < n.quantity ∧ b.getOrder n.id = none ∧ 0 < b.pool.available

/-- An accepted order names its side, and either is a market order that is not filled completely
or has a price that the book can hold; no order moves to the sentinel price. -/
def MarketSafe (b : OrderBook) : Call → Prop
  | .newOrder n => b.Admits n → n.side.Named ∧
      if n.type = .market then b.volumeOf (!n.side.isBid) < n.quantity else invalidPrice < n.price
  | .cancel _ => True
  | .modify id price qty => ∀ o, b.orderOf id = some o → 0 < qty → qty ≤ o.remaining →
      invalidPrice < price

private theorem MarketSafe.entersFit {b : OrderBook} {call : Call} (h : MarketSafe b call) :
    EntersFit b call := by
  cases call with
  | newOrder n =>
    intro hadmits
    obtain ⟨hside, hterms⟩ := h hadmits
    refine ⟨hside, fun hty => ?_⟩
    rwa [if_neg hty] at hterms
  | cancel id => trivial
  | modify id price qty => exact h

namespace OrderBook.Shows

variable {b b' : OrderBook} {v v' : BookView} {n : NewOrder} {call : Call}
  {trades : List (Order × Int)}

private theorem takes_iff (h : b.Shows v) (hty : n.type = .market) : b.Takes n ↔ v.Accepts n := by
  have hvalid : n.Valid ↔ 0 < n.quantity := by
    simp [NewOrder.Valid, MatchingEngine.ValidParams, hty]
  rw [← h.admits_iff, Takes, Admits, hvalid]

/-- The volume of the other side decides whether an accepted market order is filled. -/
theorem market_unfilled_iff (h : b.Shows v) (hv : v.Regular) (hty : n.type = .market)
    (hacc : v.Accepts n) {w : BookView} {i : Order}
    (hmatched : (v.enter n.order).Matched n.order trades w i) :
    0 < i.remaining ↔ b.volumeOf (!n.side.isBid) < n.quantity := by
  have hmarket : n.order.type = .market := n.type_order_eq_market.mpr hty
  have hvolume : (v.enter n.order).volume (!n.side.isBid) = b.volumeOf (!n.side.isBid) := by
    rw [BookView.volume, BookView.sumOver_enter_other (by simp), h.volumeOf]
    rfl
  rw [hmatched.unfilled_iff (hv.facing hacc) hmarket, n.side_order, n.remaining_order,
    hvolume]

/-- A market order that is removed has done what it should, as soon as it leaves the best price of
its side alone. -/
theorem marketOutcome_of_killed (h : b.Shows v) (hv : v.Regular) (hty : n.type = .market)
    (hacc : v.Accepts n) {w : BookView} {i : Order}
    (hmatched : (v.enter n.order).Matched n.order trades w i) (hdrop : w.Dropped i v')
    (hbest : v'.best n.side.isBid = v.best n.side.isBid) (h' : b'.Shows v') (fees : FeeSchedule) :
    MarketOutcome b n fees (tradeMsgs fees n.id trades) b' := by
  have hmarket : n.order.type = .market := n.type_order_eq_market.mpr hty
  have hswept := hmatched.swept (hv.facing hacc) hmarket
  have hlevel := BookView.level_removed hv.sound hacc hmatched hdrop
  have hsides := BookView.side_removed hv.sound hacc hmatched hdrop
  have hfacing := hmatched.facing (hv.facing hacc)
  have htotal := BookView.total_killed hv hacc hmatched hdrop hty (fun t => h.wrapped _ t)
    fun t => h.total_of_nil
  obtain ⟨filled, rfl⟩ := hmatched.taker
  rw [n.side_order, n.remaining_order] at hswept
  refine ⟨⟨trades, rfl, ?_⟩, ?_, fun t => ?_, fun t => ?_, ?_, ?_⟩
  · have hbefore : (v.enter n.order).level (!n.side.isBid) = b.queueOf (!n.side.isBid) := by
      funext t
      rw [h.queueOf, ← n.side_order, BookView.level_enter_other]
    have hafter : w.level (!n.side.isBid) = b'.queueOf (!n.side.isBid) := by
      funext t
      rw [h'.queueOf, hdrop.level_eq]
      refine (List.filter_eq_self.mpr fun x hx => ?_).symm
      obtain ⟨hx, hat⟩ := BookView.mem_level.mp hx
      rw [bne_iff_ne]
      intro hid
      rw [hfacing.sound.eq_of_id hx hfacing.taker hid] at hat
      simpa using hat.1
    rwa [← hbefore, ← hafter]
  · rw [← Option.map_eq_none_iff (f := fun p => (b'.pool.get p).unlink)]
    refine h'.orderOf_eq_none_iff.mpr fun o ho => ?_
    simpa using (hdrop.mem_iff.mp ho).2
  · rw [h'.queueOf, h.queueOf, hlevel]
  · rw [h'.levelOf, h.levelOf, hlevel, htotal]
  · rw [h'.best, h.best, hbest]
  · rw [h'.allocatedCount, (h.ordersOf_perm _).length_eq, (h'.ordersOf_perm _).length_eq, ← hsides]
    have hsplit := List.length_eq_length_filter_add (l := v'.orders)
      fun o => decide (o.side.isBid = n.side.isBid)
    refine hsplit.trans (congrArg (_ + ·) (congrArg List.length (List.filter_congr fun o _ => ?_)))
    cases o.side.isBid <;> cases n.side.isBid <;> rfl

/-- Calls that meet the requirement lead from regular books to regular books. -/
theorem regular_step (h : b.Shows v) (hv : v.Regular) (hsafe : MarketSafe b call)
    (heffect : v.Effect call trades v') : v'.Regular := by
  by_cases hmarket : ∃ n, call = .newOrder n ∧ n.type = .market
  · obtain ⟨n, rfl, hty⟩ := hmarket
    cases heffect with
    | refused _ => exact hv
    | rested _ hne _ => exact absurd hty hne
    | matched hacc _ hmatched hsettled =>
      obtain ⟨hside, hless⟩ := hsafe (h.admits_iff.mpr hacc)
      rw [if_pos hty] at hless
      have hrem := (h.market_unfilled_iff hv hty hacc hmatched).mpr hless
      rw [BookView.Settled, if_pos (iff_of_true hty hrem)] at hsettled
      exact BookView.regular_killed hv hacc hside hmatched hsettled
  · exact heffect.regular_of_fit h hv (fun n hn hty => hmarket ⟨n, hn, hty⟩) hsafe.entersFit

/-- The outcome of one market order on a regular book. -/
theorem marketOutcome_iff (h : b.Shows v) (hv : v.Regular) (hty : n.type = .market)
    (htakes : b.Takes n) (heffect : v.Effect (.newOrder n) trades v')
    (h' : b'.Shows v') (fees : FeeSchedule) :
    MarketOutcome b n fees (tradeMsgs fees n.id trades) b' ↔
      b.volumeOf (!n.side.isBid) < n.quantity ∧
        (n.side.Named ∨ b.ordersOf n.side.isBid = []) := by
  cases heffect with
  | refused hno => exact absurd ((h.takes_iff hty).mp htakes) hno
  | rested _ hne _ => exact absurd hty hne
  | @matched _ _ w _ i hacc _ hmatched hsettled =>
    have hnil : b.ordersOf n.side.isBid = [] ↔ v.side n.side.isBid = [] := by
      rw [← List.length_eq_zero_iff, (h.ordersOf_perm _).length_eq, List.length_eq_zero_iff]
    rw [← h.market_unfilled_iff hv hty hacc hmatched, hnil]
    have hfacing := hmatched.facing (hv.facing hacc)
    have hid : i.id = n.id := by
      obtain ⟨filled, rfl⟩ := hmatched.taker
      simp
    by_cases hrem : 0 < i.remaining
    · rw [BookView.Settled, if_pos (iff_of_true hty hrem)] at hsettled
      rw [and_iff_right hrem, ← BookView.best_killed_iff hv hacc hmatched hsettled hty]
      constructor
      · intro hout
        rw [← h'.best, ← h.best, hout.best]
      · intro hbest
        exact marketOutcome_of_killed h hv hty hacc hmatched hsettled hbest h' fees
    · refine iff_of_false (fun hout => ?_) fun hok => hrem hok.1
      rw [BookView.Settled, if_neg fun hiff => hrem (hiff.mp hty)] at hsettled
      have hgone := hout.gone
      rw [← Option.map_eq_none_iff (f := fun p => (b'.pool.get p).unlink)] at hgone
      rw [hsettled] at h'
      exact h'.orderOf_eq_none_iff.mp hgone i hfacing.taker hid

end OrderBook.Shows

/-- After every run of calls that meet the requirement, a market order that the book takes does
what it should exactly when the other side cannot fill it completely, and it is a bid or an ask or
nothing rests on its side. -/
theorem run_marketOutcome_iff (fees : FeeSchedule) (calls : List (HashOrder × Call))
    (hsafe : (MatchingEngine.init fees).RunMeets MarketSafe calls) :
    ∃ e, (MatchingEngine.init fees).run calls = some e ∧
      ∀ (ord : HashOrder) (n : NewOrder), n.type = .market → e.book.Takes n →
        ∃ e', e.perform ord (.newOrder n) = some e' ∧
          (MarketOutcome e.book n e.fees (e'.fills.drop e.fills.length) e'.book ↔
            e.book.volumeOf (!n.side.isBid) < n.quantity ∧
              (n.side.Named ∨ e.book.ordersOf n.side.isBid = [])) := by
  obtain ⟨e, v, hrun, hshows, hv⟩ := MatchingEngine.run_rule BookView.Regular MarketSafe
    (fun h hv hsafe heffect _ => h.regular_step hv hsafe heffect)
    (e := MatchingEngine.init fees) OrderBook.shows_init BookView.regular_empty hsafe
  refine ⟨e, hrun, fun ord n hty htakes => ?_⟩
  obtain ⟨e', trades, v', hcall, hshows', heffect, -, hfills⟩ :=
    MatchingEngine.perform_spec hshows ord (.newOrder n)
  refine ⟨e', hcall, ?_⟩
  rw [hfills, List.drop_left]
  exact hshows.marketOutcome_iff hv hty htakes heffect hshows' e.fees

/-- After a market order for more than the only ask offers, a market bid for 1 finds nothing and
leaves nothing behind. -/
theorem run_marketOutcome_iff_after_partial_fill :
    ∃ e e', (MatchingEngine.init {}).run
        [(HashOrder.recent, .newOrder ⟨1, .ask, .limit, 10000, 100, 0, 0⟩),
          (HashOrder.recent, .newOrder ⟨2, .bid, .market, 0, 150, 0, 0⟩)] = some e ∧
      e.perform HashOrder.recent (.newOrder ⟨3, .bid, .market, 0, 1, 0, 0⟩) = some e' ∧
      MarketOutcome e.book ⟨3, .bid, .market, 0, 1, 0, 0⟩ e.fees
        (e'.fills.drop e.fills.length) e'.book := by
  obtain ⟨e, hrun, hafter⟩ := run_marketOutcome_iff {}
    [(HashOrder.recent, .newOrder ⟨1, .ask, .limit, 10000, 100, 0, 0⟩),
      (HashOrder.recent, .newOrder ⟨2, .bid, .market, 0, 150, 0, 0⟩)]
    ⟨fun _ => by decide, fun e he => by
      obtain rfl := Option.some.inj he
      exact ⟨fun _ => by decide, fun _ _ => trivial⟩⟩
  obtain rfl := Option.some.inj hrun
  obtain ⟨e', hcall, hiff⟩ := hafter HashOrder.recent ⟨3, .bid, .market, 0, 1, 0, 0⟩ rfl
    ⟨by decide, by decide, by decide⟩
  exact ⟨_, e', rfl, hcall, hiff.mpr (by decide)⟩

/-- A market bid for all of the only ask is still in the book when the call returns. -/
theorem filled_market_order_rests :
    ∃ e e', (MatchingEngine.init {}).run
        [(HashOrder.recent, .newOrder ⟨1, .ask, .limit, 10000, 100, 0, 0⟩)] = some e ∧
      e.book.Takes ⟨2, .bid, .market, 0, 100, 0, 0⟩ ∧
      e.perform HashOrder.recent (.newOrder ⟨2, .bid, .market, 0, 100, 0, 0⟩) = some e' ∧
      ¬ MarketOutcome e.book ⟨2, .bid, .market, 0, 100, 0, 0⟩ e.fees
        (e'.fills.drop e.fills.length) e'.book :=
  ⟨_, _, rfl, ⟨by decide, by decide, by decide⟩, rfl, fun hout => absurd hout.gone (by decide)⟩

end LiquidityArena

import LiquidityArena.View.Observe

/-!
# When the book stays uncrossed

New orders never leave the book crossed: the matching loop stops only when the
incoming order is filled, the other side is empty or the prices are apart. A
modify that changes the price enters the order again without matching it, so the
book is crossed after a run exactly when some modify moved an order across the
spread.
-/

namespace LiquidityArena

open OrderBook

/-- One side is empty, or the best bid is below the best ask. -/
def OrderBook.Uncrossed (b : OrderBook) : Prop :=
  b.bids.entries = [] ∨ b.asks.entries = [] ∨ b.bestBid < b.bestAsk

/-- A modify that will be applied at a new price does not move the order across the spread. -/
def NoCrossingModify (b : OrderBook) : Call → Prop
  | .newOrder _ => True
  | .cancel _ => True
  | .modify id price qty => ∀ o, b.orderOf id = some o → 0 < qty → qty ≤ o.remaining →
      price ≠ o.price → ¬ MatchingEngine.Crosses b o.side price

namespace BookView

variable {v v' w : BookView} {i i' m o : Order} {q : Int} {trades : List (Order × Int)}
  {call : Call}

/-- Every bid is below every ask, the order with the given id left out. -/
def ApartBut (v : BookView) (id : Option OrderId) : Prop :=
  ∀ o ∈ v.orders, ∀ o' ∈ v.orders, some o.id ≠ id → some o'.id ≠ id →
    o.side.isBid = true → o'.side.isBid = false → o.price < o'.price

/-- Orders that stand where orders of another view stand are as far apart as these. -/
theorem ApartBut.of_places {id : Option OrderId} (h : v.ApartBut id)
    (hplace : v'.All fun o => ∃ x ∈ v.orders, x.id = o.id ∧ x.side = o.side ∧ x.price = o.price) :
    v'.ApartBut id := by
  intro o ho o' ho' hid hid' hs hs'
  obtain ⟨x, hx, hxid, hxs, hxp⟩ := hplace o ho
  obtain ⟨x', hx', hxid', hxs', hxp'⟩ := hplace o' ho'
  rw [← hxp, ← hxp']
  exact h x hx x' hx' (hxid ▸ hid) (hxid' ▸ hid') (hxs ▸ hs) (hxs' ▸ hs')

private theorem all_self_place (v : BookView) :
    v.All fun o => ∃ x ∈ v.orders, x.id = o.id ∧ x.side = o.side ∧ x.price = o.price :=
  fun o ho => ⟨o, ho, rfl, rfl, rfl⟩

private theorem Matched.apartBut (h : v.Matched i trades v' i') (hv : v.Sound) {id : Option OrderId}
    (ha : v.ApartBut id) : v'.ApartBut id :=
  ha.of_places (h.all hv (fun hx => hx) (fun hx => hx) v.all_self_place)

private theorem Dropped.apartBut (h : v.Dropped o v') {id : Option OrderId} (ha : v.ApartBut id) :
    v'.ApartBut id :=
  ha.of_places fun x hx => ⟨x, (h.mem_iff.mp hx).1, rfl, rfl, rfl⟩

/-- Dropping the order that was left out leaves a view apart. -/
theorem Dropped.apart (h : v.Dropped o v') (ha : v.ApartBut (some o.id)) : v'.ApartBut none := by
  intro x hx x' hx' _ _ hs hs'
  obtain ⟨hx, hne⟩ := h.mem_iff.mp hx
  obtain ⟨hx', hne'⟩ := h.mem_iff.mp hx'
  exact ha x hx x' hx' (by simpa using hne) (by simpa using hne') hs hs'

/-- An order that does not cross the cached opposite best price stands apart. -/
theorem apart_of_not_crossing (hv : v.Ordered) (hi : i ∈ v.orders)
    (hbest : v.best (!i.side.isBid) = invalidPrice ∨
      Better i.side.isBid (v.best (!i.side.isBid)) i.price)
    (ha : v.ApartBut (some i.id)) : v.ApartBut none := by
  -- The cached best price bounds the whole other side.
  have hother : ∀ x ∈ v.orders, x.side.isBid = !i.side.isBid →
      Better i.side.isBid x.price i.price := by
    intro x hx hside
    obtain ⟨hne, hnb⟩ := hv.topped (!i.side.isBid) x.price ⟨x, hx, hside, rfl⟩
    have hb := hbest.resolve_left hne
    cases hi : i.side.isBid <;> simp only [hi, Bool.not_true, Bool.not_false, Better] at hnb hb ⊢ <;>
      omega
  intro o ho o' ho' _ _ hs hs'
  by_cases hid : o.id = i.id
  · rw [hv.sound.eq_of_id ho hi hid] at hs ⊢
    simpa [hs, Better] using hother o' ho' (by simp [hs, hs'])
  · by_cases hid' : o'.id = i.id
    · rw [hv.sound.eq_of_id ho' hi hid'] at hs' ⊢
      simpa [hs', Better] using hother o ho (by simp [hs, hs'])
    · exact ha o ho o' ho' (by simpa using hid) (by simpa using hid') hs hs'

/-- The incoming order of a new order is the only one that may stand across the spread. -/
theorem ApartBut.enter (ha : v.ApartBut none) (o : Order) :
    (v.enter o).ApartBut (some o.id) := by
  have hold : ∀ x ∈ (v.enter o).orders, some x.id ≠ some o.id → x ∈ v.orders := by
    intro x hx hne
    refine (List.mem_append.mp hx).resolve_right fun hlast => hne ?_
    rw [List.mem_singleton.mp hlast]
  intro x hx x' hx' hid hid' hs hs'
  exact ha x (hold x hx hid) x' (hold x' hx' hid') (by simp) (by simp) hs hs'

/-- New orders and cancels never cross a book. -/
theorem Effect.apart (h : v.Effect call trades v')
    (hty : ∀ n, call = .newOrder n → n.type ≠ .market) (hfits : v.Enters Fit call)
    (hv : v.Regular) (ha : v.ApartBut none) (hmod : ∀ id price qty, call ≠ .modify id price qty) :
    v'.ApartBut none := by
  cases h with
  | refused _ => exact ha
  | @rested n hacc hlimited hcross =>
    refine apart_of_not_crossing (i := n.order) (hv.enter hacc (hfits hacc))
      (by simp [enter, place]) ?_ (ha.enter n.order)
    rw [best_enter_other, n.side_order, n.price_order hlimited]
    by_contra hno
    have hside := (hfits hacc).1
    rw [n.side_order] at hside
    exact hcross ⟨hside, fun hinv => hno (Or.inl hinv), fun hb => hno (Or.inr hb)⟩
  | @matched n _ w _ i hacc _ hmatched hsettled =>
    have henter := hv.enter hacc (hfits hacc)
    have hw := hmatched.ordered henter
    obtain ⟨-, hi⟩ := hmatched.sound henter.sound (by simp [enter, place])
    have hbut := hmatched.apartBut henter.sound (ha.enter n.order)
    obtain ⟨filled, hfilled⟩ := hmatched.taker
    have hid : n.order.id = i.id := by rw [hfilled]; rfl
    rw [hid] at hbut
    by_cases hrem : 0 < i.remaining
    · rw [Settled, if_neg (by simp [hty n rfl, hrem])] at hsettled
      rw [hsettled]
      exact apart_of_not_crossing hw hi (hmatched.stops.not_crossing (hw.anchored _) hrem) hbut
    · rw [Settled, if_pos (by simp [hty n rfl, hrem])] at hsettled
      exact hsettled.apart hbut
  | cancelled ho hdrop => exact hdrop.apartBut ha
  | notFound _ => exact ha
  | modified => exact absurd rfl (hmod _ _ _)
  | unmodified => exact absurd rfl (hmod _ _ _)

/-- A modify keeps the book uncrossed exactly when a new price does not cross the spread. -/
theorem Modified.apart_iff {price qty : Int} (h : v.Modified o price qty v') (ho : o ∈ v.orders)
    (hv : v.Ordered) (hv' : v'.Ordered) (ha : v.ApartBut none) :
    v'.ApartBut none ↔ (price ≠ o.price → ¬ v.Crosses o.side price) := by
  cases h with
  | inPlace hprice =>
    refine iff_of_true (ha.of_places ?_) fun hne => absurd hprice hne
    intro x hx
    obtain ⟨y, hy, rfl⟩ := mem_amend.mp hx
    refine ⟨y, hy, ?_⟩
    split <;> exact ⟨rfl, rfl, rfl⟩
  | @moved w hne hdrop =>
    have hbest : w.best (!o.side.isBid) = v.best (!o.side.isBid) := by
      have hb := hdrop.best (!o.side.isBid)
      rwa [if_neg fun hc => by simpa using congrArg Side.isBid hc.1] at hb
    have hmem : reentry o price qty ∈ (w.enter (reentry o price qty)).orders := by
      simp [enter, place]
    constructor
    · rintro hapart - ⟨-, hinv, hnb⟩
      -- The cached opposite best price is that of an order the re-entered one now crosses.
      obtain ⟨x, hx, hxs, hxp⟩ := (hv.anchored (!o.side.isBid)).resolve_left hinv
      have hxmem : x ∈ (w.enter (reentry o price qty)).orders := by
        refine List.mem_append_left _ (hdrop.mem_iff.mpr ⟨hx, fun hid => ?_⟩)
        rw [hv.sound.eq_of_id hx ho hid] at hxs
        simp at hxs
      rw [← hxp] at hnb
      cases hs : o.side.isBid with
      | true =>
        rw [hs] at hxs hnb
        exact hnb (by simpa [Better] using hapart _ hmem x hxmem (by simp) (by simp) (by simp [hs]) hxs)
      | false =>
        rw [hs] at hxs hnb
        exact hnb (by simpa [Better] using hapart x hxmem _ hmem (by simp) (by simp) hxs (by simp [hs]))
    · intro hcross
      refine apart_of_not_crossing hv' hmem ?_ ((hdrop.apartBut ha).enter _)
      have hother := best_enter_other w (reentry o price qty)
      rw [side_reentry, hbest] at hother
      rw [side_reentry, price_reentry]
      change (w.enter (reentry o price qty)).best (!o.side.isBid) = _ ∨
        Better _ ((w.enter (reentry o price qty)).best (!o.side.isBid)) _
      rw [hother]
      by_contra hno
      exact hcross hne ⟨hv.sides o ho, fun hinv => hno (Or.inl hinv), fun hb => hno (Or.inr hb)⟩

end BookView

/-- For a book that shows an ordered view, being uncrossed is read off the orders. -/
theorem OrderBook.Shows.uncrossed_iff {b : OrderBook} {v : BookView} (h : b.Shows v)
    (hv : v.Ordered) : b.Uncrossed ↔ v.ApartBut none := by
  have hbest : b.bestBid = v.best true ∧ b.bestAsk = v.best false :=
    ⟨congrFun h.best true, congrFun h.best false⟩
  have hbids : b.bids.entries = [] ↔ v.side true = [] := h.entries_eq_nil_iff (s := true)
  have hasks : b.asks.entries = [] ↔ v.side false = [] := h.entries_eq_nil_iff (s := false)
  rw [Uncrossed, hbids, hasks, hbest.1, hbest.2]
  constructor
  · rintro hcases o ho o' ho' - - hs hs'
    rcases hcases with hnil | hnil | hlt
    · exact absurd (BookView.mem_side.mpr ⟨ho, hs⟩) (by simp [hnil])
    · exact absurd (BookView.mem_side.mpr ⟨ho', hs'⟩) (by simp [hnil])
    · have hbid := (hv.topped true o.price ⟨o, ho, hs, rfl⟩).2
      have hask := (hv.topped false o'.price ⟨o', ho', hs', rfl⟩).2
      simp only [Better] at hbid hask
      omega
  · intro ha
    by_cases hb : v.best true = invalidPrice
    · exact Or.inl ((BookView.best_eq_invalid_iff (hv.anchored _) (hv.topped _)).mp hb)
    · by_cases hs : v.best false = invalidPrice
      · exact Or.inr (Or.inl ((BookView.best_eq_invalid_iff (hv.anchored _) (hv.topped _)).mp hs))
      · obtain ⟨o, ho, hoat⟩ := (hv.anchored true).resolve_left hb
        obtain ⟨o', ho', hoat'⟩ := (hv.anchored false).resolve_left hs
        rw [← hoat.2, ← hoat'.2]
        exact Or.inr (Or.inr (ha o ho o' ho' (by simp) (by simp) hoat.1 hoat'.1))

/-- One call keeps an uncrossed book uncrossed exactly when it meets the requirement. -/
theorem OrderBook.Shows.uncrossed_step {b b' : OrderBook} {v v' : BookView} {call : Call}
    {trades : List (Order × Int)} (h : b.Shows v) (hv : v.Regular) (hb : b.Uncrossed)
    (hrests : call.Rests) (hnamed : AdmitsNamed b call) (heffect : v.Effect call trades v')
    (h' : b'.Shows v') : v'.Regular ∧ (b'.Uncrossed ↔ NoCrossingModify b call) := by
  have hfits := h.enters_of_rests hv.sides hrests hnamed
  have hty := hrests.noMarket.not_market
  have hv' := heffect.regular_of_enters hty hfits hv
  refine ⟨hv', ?_⟩
  have ha := (h.uncrossed_iff hv.toOrdered).mp hb
  rw [h'.uncrossed_iff hv'.toOrdered]
  cases call with
  | newOrder n => exact iff_of_true (heffect.apart hty hfits hv ha (by simp)) trivial
  | cancel id => exact iff_of_true (heffect.apart hty hfits hv ha (by simp)) trivial
  | modify id price qty =>
    cases heffect with
    | @modified o _ _ _ ho hpos hle hmod =>
      rw [hmod.apart_iff ho hv.toOrdered hv'.toOrdered ha, ← h.crosses_iff]
      constructor
      · intro hok x hx _ _
        rw [h.orderOf_eq_some_iff] at hx
        rw [h.sound.eq_of_id hx.1 ho hx.2]
        exact hok
      · exact fun hok => hok o (h.orderOf_eq_some_iff.mpr ⟨ho, rfl⟩) hpos hle
    | unmodified hno =>
      refine iff_of_true ha fun x hx hpos hle => ?_
      rw [h.orderOf_eq_some_iff] at hx
      exact absurd ⟨hpos, hle⟩ (hno x hx.1 hx.2)

/-- A run of limit and iceberg orders, cancels and modifies whose accepted orders are bids and
asks keeps the book uncrossed throughout exactly when none of its modifies moves an order across
the spread. -/
theorem run_uncrossed_iff (fees : FeeSchedule) (calls : List (HashOrder × Call))
    (hcalls : ∀ c ∈ calls, c.2.Rests)
    (hnamed : (MatchingEngine.init fees).RunMeets AdmitsNamed calls) :
    (MatchingEngine.init fees).RunAlways Uncrossed calls ↔
      (MatchingEngine.init fees).RunMeets NoCrossingModify calls :=
  MatchingEngine.runAlways_iff
    (fun h hv hb hcall heffect h' => h.uncrossed_step hv hb hcall.1 hcall.2 heffect h')
    OrderBook.shows_init BookView.regular_empty (Or.inl rfl) (hnamed.and_forall hcalls)

/-- A modify within the spread and one that reaches the ask. -/
theorem run_uncrossed_iff_within_spread :
    (MatchingEngine.init {}).RunAlways Uncrossed
        [(HashOrder.recent, .newOrder ⟨1, .bid, .limit, 99, 10, 0, 0⟩),
          (HashOrder.recent, .newOrder ⟨2, .ask, .iceberg, 103, 10, 0, 4⟩),
          (HashOrder.recent, .modify 1 101 10), (HashOrder.recent, .modify 1 103 10)] ↔
      (MatchingEngine.init {}).RunMeets NoCrossingModify
        [(HashOrder.recent, .newOrder ⟨1, .bid, .limit, 99, 10, 0, 0⟩),
          (HashOrder.recent, .newOrder ⟨2, .ask, .iceberg, 103, 10, 0, 4⟩),
          (HashOrder.recent, .modify 1 101 10), (HashOrder.recent, .modify 1 103 10)] :=
  run_uncrossed_iff {} _ (by decide) ⟨fun _ => Or.inl rfl, fun _ _ =>
    ⟨fun _ => Or.inr rfl, fun _ _ => ⟨trivial, fun _ _ => ⟨trivial, fun _ _ => trivial⟩⟩⟩⟩

/-- A bid moved from 99 to 102 rests above the ask at 101. -/
theorem modify_across_spread_crosses :
    (∀ c ∈ [(HashOrder.recent, Call.newOrder ⟨1, .bid, .limit, 99, 10, 0, 0⟩),
        (HashOrder.recent, .newOrder ⟨2, .ask, .limit, 101, 10, 0, 0⟩),
        (HashOrder.recent, .modify 1 102 10)], c.2.Rests) ∧
      ∃ e, (MatchingEngine.init {}).run
        [(HashOrder.recent, .newOrder ⟨1, .bid, .limit, 99, 10, 0, 0⟩),
          (HashOrder.recent, .newOrder ⟨2, .ask, .limit, 101, 10, 0, 0⟩),
          (HashOrder.recent, .modify 1 102 10)] = some e ∧ ¬ e.book.Uncrossed := by
  refine ⟨by decide, _, rfl, ?_⟩
  rintro (hbids | hasks | hlt)
  · exact absurd (congrArg List.length hbids) (by decide)
  · exact absurd (congrArg List.length hasks) (by decide)
  · exact absurd hlt (by decide)

end LiquidityArena

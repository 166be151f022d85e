import LiquidityArena.Correctness.MarketOrders
import LiquidityArena.Correctness.TopOfBook

/-!
# Replaying a run

The hash maps of the book fix no iteration order, so two processes that are given the same
calls may scan their levels differently. The scans agree as long as no order rests at the
sentinel price, which a scan cannot tell from the price it starts with: then every call
leaves the same engine, and the snapshots of the two processes are the same.
-/

namespace LiquidityArena

open MatchingEngine OrderBook

/-- No order is queued at the sentinel price. -/
def OrderBook.SentinelFree (b : OrderBook) : Prop := ∀ s, b.queueOf s invalidPrice = []

/-- What keeps a call from leaving an order at the sentinel price: a market sell order that is
accepted is not filled, and another order that is accepted or moved has another price. -/
def AvoidsSentinel (b : OrderBook) : Call → Prop
  | .newOrder n => b.Admits n →
      if n.type = .market then n.side = .bid ∨ b.volumeOf true < n.quantity
      else n.price ≠ invalidPrice
  | .cancel _ => True
  | .modify id price qty => ∀ o, b.orderOf id = some o → 0 < qty → qty ≤ o.remaining →
      price ≠ invalidPrice

namespace OrderBook

variable {b : OrderBook} {s : Bool} {p : Ptr} {ps : List Ptr}

/-- Away from the sentinel the entries of a scan may be swapped. -/
theorem scanStep_comm {x y : Σ _ : Int, PriceLevel} (hx : x.1 ≠ invalidPrice)
    (hy : y.1 ≠ invalidPrice) (best : Int) :
    scanStep s (scanStep s best x) y = scanStep s (scanStep s best y) x := by
  cases s <;> simp only [scanStep, Better] <;> grind

/-- A scan that meets no sentinel finds the same price in every order. -/
theorem updateBest_congr (h : ∀ t ∈ (b.levels s).keys, t ≠ invalidPrice) (ord ord' : HashOrder) :
    b.updateBest ord s = b.updateBest ord' s := by
  have hperm := (ord.perm (b.levels s).entries).trans (ord'.perm (b.levels s).entries).symm
  have hkey : ∀ entry ∈ ord.arrange (b.levels s).entries, entry.1 ≠ invalidPrice :=
    fun entry hentry => h _ (List.mem_map_of_mem ((ord.perm _).mem_iff.mp hentry))
  rw [updateBest, updateBest, scanBest, scanBest]
  exact congrArg _ (hperm.foldl_eq' (fun x hx y hy => scanStep_comm (hkey x hx) (hkey y hy)) _)

/-- Unlinking an order does not depend on the iteration order when the others of its side
are not at the sentinel. -/
theorem removeOrderFromLevel_congr
    (h : ∀ t ∈ (b.levels (b.pool.get p).side.isBid).keys, t ≠ (b.pool.get p).price →
      t ≠ invalidPrice) (ord ord' : HashOrder) :
    b.removeOrderFromLevel ord p = b.removeOrderFromLevel ord' p := by
  unfold removeOrderFromLevel
  dsimp only
  cases (b.levels (b.pool.get p).side.isBid).lookup (b.pool.get p).price with
  | none => rfl
  | some level =>
    have hrest : ∀ unlinked : OrderBook, ∀ t ∈ ((unlinked.setLevels (b.pool.get p).side.isBid
        ((b.levels (b.pool.get p).side.isBid).erase (b.pool.get p).price)).levels
          (b.pool.get p).side.isBid).keys, t ≠ invalidPrice := by
      intro unlinked t ht
      rw [levels_setLevels, if_pos rfl, ← AList.mem_keys, AList.mem_erase, AList.mem_keys] at ht
      exact h t ht.2 ht.1
    dsimp only
    refine if_congr Iff.rfl (ite_congr rfl (fun hbid => ?_)
      fun _ => ite_congr rfl (fun hask => ?_) fun _ => rfl) rfl
    · exact updateBest_congr (fun t ht => hrest _ t (by rwa [hbid.1] at ht ⊢)) ord ord'
    · exact updateBest_congr (fun t ht => hrest _ t (by rwa [hask.1] at ht ⊢)) ord ord'

end OrderBook

namespace BookView

variable {v v' : BookView} {i i' m : Order} {q : Int} {trades : List (Order × Int)}

/-- No order but the one with the id is at the sentinel price. -/
def ClearBut (v : BookView) (id : OrderId) : Prop := v.All fun o => o.id ≠ id → o.price ≠ invalidPrice

private theorem ClearBut.amend {orders : List Order} {id id' : OrderId}
    (h : ∀ o ∈ orders, o.id ≠ id → o.price ≠ invalidPrice) :
    ∀ o ∈ BookView.amend orders id' (·.fill q), o.id ≠ id → o.price ≠ invalidPrice := by
  intro o ho hne
  obtain ⟨x, hx, rfl⟩ := mem_amend.mp ho
  by_cases hid : x.id = id'
  · rw [if_pos hid] at hne ⊢
    exact h x hx hne
  · rw [if_neg hid] at hne ⊢
    exact h x hx hne

private theorem ClearBut.fill {id : OrderId} (h : v.ClearBut id) (m t : Order) :
    (v.fill m t q).ClearBut id :=
  ClearBut.amend (ClearBut.amend h)

private theorem Trade.clearBut {id : OrderId} (h : v.Trade i m q v') (hv : v.Sound)
    (hclear : v.ClearBut id) : v'.ClearBut id :=
  h.all hv (fun hx => hx) (fun hx => hx) hclear

private theorem Matched.clearBut {id : OrderId} (h : v.Matched i trades v' i') (hv : v.Sound)
    (hclear : v.ClearBut id) : v'.ClearBut id :=
  h.all hv (fun hx => hx) (fun hx => hx) hclear

/-- A view without the sentinel stays so when an order enters, but for that order. -/
theorem ClearBut.enter (hclear : v.All (·.price ≠ invalidPrice)) (n : NewOrder) :
    (v.enter n.order).ClearBut n.id := by
  intro o ho hne
  rcases List.mem_append.mp ho with ho | ho
  · exact hclear o ho
  · rw [List.mem_singleton.mp ho, n.id_order] at hne
    exact absurd rfl hne

end BookView

namespace OrderBook.Rep

variable {b : OrderBook} {e : MatchingEngine} {ps : List Ptr} {p m : Ptr}

/-- The levels that hold none but other orders than `p` are not at the sentinel. -/
theorem clear_keys (h : b.Rep ps) (hp : p ∈ ps) (hclear : (b.view ps).ClearBut (b.pool.get p).id)
    {s : Bool} {t : Int} (ht : t ∈ (b.levels s).keys) (hat : ¬ (b.pool.get p).At s t) :
    t ≠ invalidPrice := by
  obtain ⟨o, ho, hot⟩ := BookView.level_ne_nil_iff.mp (h.toStored.mem_keys_iff.mp ht)
  obtain ⟨x, hx, rfl⟩ := mem_orders.mp ho
  rw [← hot.2]
  refine hclear _ ho fun hid => hat ?_
  obtain rfl := h.id_inj hx hp hid
  exact hot

/-- What `p` leaves behind does not depend on the iteration order. -/
theorem removeOrderFromLevel_congr (h : b.Rep ps) (hp : p ∈ ps)
    (hclear : (b.view ps).ClearBut (b.pool.get p).id) (ord ord' : HashOrder) :
    b.removeOrderFromLevel ord p = b.removeOrderFromLevel ord' p :=
  OrderBook.removeOrderFromLevel_congr
    (fun _ ht hne => h.clear_keys hp hclear ht fun hat => hne hat.2.symm) ord ord'

/-- What follows a fill for a maker of the other side does not depend on the iteration order. -/
theorem settleMaker_congr (h : e.book.Rep ps) (hp : p ∈ ps)
    (hclear : (e.book.view ps).ClearBut (e.book.pool.get p).id)
    (hside : (e.book.pool.get m).side.isBid = !(e.book.pool.get p).side.isBid)
    (ord ord' : HashOrder) : e.settleMaker ord m = e.settleMaker ord' m := by
  have hremove : e.book.removeOrderFromLevel ord m = e.book.removeOrderFromLevel ord' m := by
    refine OrderBook.removeOrderFromLevel_congr (fun t ht _ => ?_) ord ord'
    refine h.clear_keys hp hclear ht fun hat => ?_
    simpa [hside] using hat.1
  rw [settleMaker, settleMaker, hremove]

/-- One pass of the loop does not depend on the iteration order. -/
theorem matchStep_congr (h : e.book.Rep ps) (hp : p ∈ ps)
    (hclear : (e.book.view ps).ClearBut (e.book.pool.get p).id) (ord ord' : HashOrder) :
    e.matchStep ord p = e.matchStep ord' p := by
  unfold matchStep
  dsimp only
  refine ite_congr rfl (fun _ => rfl) fun _ => ite_congr rfl (fun _ => rfl) fun hinv =>
    ite_congr rfl (fun _ => rfl) fun _ => ?_
  cases hbest : e.book.bestOrder (!(e.book.pool.get p).side.isBid) with
  | none => rfl
  | some m =>
    rw [h.bestOrder_eq hinv] at hbest
    obtain ⟨hm, hmat⟩ := mem_queueAt.mp (List.mem_of_head? hbest)
    have hne : m ≠ p := by
      rintro rfl
      simpa using hmat.1
    obtain ⟨book, hfill, hrep, hview, hget⟩ := h.executeFill hm hp hne
      (min (e.book.pool.get p).remaining (makerAvailable (e.book.pool.get m)))
    have hgetp : (book.pool.get p).id = (e.book.pool.get p).id ∧
        (book.pool.get p).side = (e.book.pool.get p).side := by
      rw [hget, if_pos (Or.inr rfl)]
      exact ⟨rfl, rfl⟩
    have hgetm : (book.pool.get m).side = (e.book.pool.get m).side := by
      rw [hget, if_pos (Or.inl rfl)]
      rfl
    dsimp only
    rw [hfill]
    refine congrArg some (settleMaker_congr (e := { e with book }.record _) hrep hp ?_ ?_ ord ord')
    · change (book.view ps).ClearBut (book.pool.get p).id
      rw [hview, hgetp.1]
      exact hclear.fill _ _
    · change (book.pool.get m).side.isBid = !(book.pool.get p).side.isBid
      rw [hgetm, hgetp.2]
      exact hmat.1

/-- The loop does not depend on the iteration order. -/
theorem matchLoop_congr (h : e.book.Rep ps) (hv : (e.book.view ps).Sound) (hp : p ∈ ps)
    (hclear : (e.book.view ps).ClearBut (e.book.pool.get p).id) (ord ord' : HashOrder)
    (fuel : Nat) : matchLoop ord p fuel e = matchLoop ord' p fuel e := by
  induction fuel generalizing e ps with
  | zero => rfl
  | succ fuel ih =>
    rw [matchLoop, matchLoop, h.matchStep_congr hp hclear ord ord']
    rcases h.matchStep_cases hp ord' with
      ⟨-, hnone⟩ | ⟨m, q, book, ps', hsome, hrep, hp', hget, htrade⟩
    · rw [hnone]
    · rw [hsome]
      refine ih hrep (htrade.sound hv) hp' ?_
      have hid : (book.pool.get p).id = (e.book.pool.get p).id := by
        rw [← Order.id_unlink, hget, Order.id_fill, Order.id_unlink]
      change (book.view ps').ClearBut (book.pool.get p).id
      rw [hid]
      exact htrade.clearBut hv hclear

/-- What a new order does that is not matched does not depend on the iteration order. -/
theorem processNewOrder_of_not_entered {n : NewOrder} (h : e.entered n = none)
    (ord ord' : HashOrder) :
    e.processNewOrder ord n.id n.side n.type n.price n.quantity n.ts n.displayQty =
      e.processNewOrder ord' n.id n.side n.type n.price n.quantity n.ts n.displayQty := by
  unfold entered at h
  unfold processNewOrder
  refine ite_congr rfl (fun hvalid => ite_congr rfl (fun hty => ?_) fun hty => ?_) fun _ => rfl
  · rw [if_pos (show n.Valid from hvalid), if_pos hty] at h
    rw [processMarket, processMarket]
    dsimp only at h ⊢
    generalize e.book.addOrder n.id n.side (if n.side = .bid then maxPrice else minPrice)
      n.quantity n.ts = placed at h ⊢
    obtain ⟨_ | p, added⟩ := placed
    · rfl
    · cases h
  · rw [if_pos (show n.Valid from hvalid), if_neg hty] at h
    rw [processResting, processResting]
    dsimp only at h ⊢
    generalize (if n.type = .iceberg then
        e.book.addIcebergOrder n.id n.side n.price n.quantity n.displayQty n.ts
      else e.book.addOrder n.id n.side n.price n.quantity n.ts) = placed at h ⊢
    obtain ⟨_ | p, book⟩ := placed
    · rfl
    · refine ite_congr rfl (fun hcross => ?_) fun _ => rfl
      dsimp only at h
      rw [if_pos hcross] at h
      cases h

/-- A new order does the same under every iteration order. -/
theorem processNewOrder_congr (h : e.book.Rep ps) (hv : (e.book.view ps).Sound)
    (hclear : (e.book.view ps).All (·.price ≠ invalidPrice)) (n : NewOrder) (ord ord' : HashOrder) :
    e.processNewOrder ord n.id n.side n.type n.price n.quantity n.ts n.displayQty =
      e.processNewOrder ord' n.id n.side n.type n.price n.quantity n.ts n.displayQty := by
  rcases h.entered_cases n with ⟨hnone, -⟩ | ⟨p, e₀, hsome, hacc, hrep, hview, hget⟩
  · exact processNewOrder_of_not_entered hnone ord ord'
  · have hid : (e₀.book.pool.get p).id = n.id := (congrArg Order.id hget).trans n.id_order
    have hsound : (e₀.book.view (ps ++ [p])).Sound := hview ▸ hv.enter hacc
    have hbut : (e₀.book.view (ps ++ [p])).ClearBut (e₀.book.pool.get p).id := by
      rw [hview, hid]
      exact BookView.ClearBut.enter hclear n
    have hp : p ∈ ps ++ [p] := by simp
    obtain ⟨trades, book, ps', hloop, hrep', hp', -, hmatched⟩ :=
      hrep.matchOrder_spec hsound hp ord'
    rw [processNewOrder_of_entered hsome, processNewOrder_of_entered hsome,
      show e₀.matchOrder ord p = e₀.matchOrder ord' p from
        hrep.matchLoop_congr hsound hp hbut ord ord' _, hloop]
    refine congrArg some ?_
    obtain ⟨filled, htaker⟩ := hmatched.taker
    have hid' : (book.pool.get p).id = (e₀.book.pool.get p).id := by
      rw [← Order.id_unlink, htaker, Order.id_fill, Order.id_unlink]
    have hremove := hrep'.removeOrderFromLevel_congr hp'
      (hid' ▸ hmatched.clearBut hsound hbut) ord ord'
    rw [finish, finish, book_settle, hremove]

/-- A discard does the same under every iteration order. -/
theorem discard_congr (h : b.Rep ps) (hp : p ∈ ps)
    (hclear : (b.view ps).All (·.price ≠ invalidPrice)) (id : OrderId) (ord ord' : HashOrder) :
    b.discard ord id p = b.discard ord' id p := by
  rw [OrderBook.discard, OrderBook.discard,
    h.removeOrderFromLevel_congr hp (fun o ho _ => hclear o ho) ord ord']

end OrderBook.Rep

/-- A call does the same under every iteration order when no order rests at the sentinel. -/
theorem MatchingEngine.perform_congr {e : MatchingEngine} {v : BookView} (h : e.book.Shows v)
    (hclear : v.All (·.price ≠ invalidPrice)) (ord ord' : HashOrder) (call : Call) :
    e.perform ord call = e.perform ord' call := by
  obtain ⟨ps, hrep, rfl, hv⟩ := h
  cases call with
  | newOrder n =>
    exact congrArg (Option.map (·.2)) (hrep.processNewOrder_congr hv hclear n ord ord')
  | cancel id =>
    refine congrArg some ?_
    rw [processCancel, processCancel, cancelOrder, cancelOrder]
    cases hl : e.book.getOrder id with
    | none => rfl
    | some p =>
      have hp := ((hrep.map id p).mp hl).1
      dsimp only
      rw [hrep.discard_congr hp hclear id ord ord']
  | modify id price qty =>
    refine congrArg some ?_
    rw [processModify, processModify, modifyOrder, modifyOrder]
    cases hl : e.book.getOrder id with
    | none => rfl
    | some p =>
      have hp := ((hrep.map id p).mp hl).1
      dsimp only
      rw [hrep.discard_congr hp hclear id ord ord']

/-- A market sell order that the bids cannot fill is gone when its call returns. -/
theorem BookView.Effect.clear_of_unfilled {v v' : BookView} {n : NewOrder}
    {trades : List (Order × Int)} (h : v.Effect (.newOrder n) trades v') (hv : v.Sound)
    (hty : n.type = .market) (hside : n.side.isBid = false) (hlt : v.volume true < n.quantity)
    (hclear : v.All (·.price ≠ invalidPrice)) : v'.All (·.price ≠ invalidPrice) := by
  cases h with
  | refused _ => exact hclear
  | rested _ hno _ => exact absurd hty hno
  | @matched _ _ w _ i hacc _ hmatched hsettled =>
    have hsound := hv.enter hacc
    have henter : (v.enter n.order).volume true = v.volume true := by
      rw [volume, sumOver_enter_other (by simp [hside])]
      rfl
    have hbalance := hmatched.volume hsound
    rw [n.side_order, hside, n.remaining_order, Bool.not_false, henter] at hbalance
    have hleft : 0 ≤ w.volume true :=
      (hmatched.sound hsound (by simp [BookView.enter, place])).1.sumOver_nonneg _
    rw [Settled, if_pos (iff_of_true hty (by omega))] at hsettled
    obtain ⟨filled, rfl⟩ := hmatched.taker
    intro o ho
    obtain ⟨ho, hne⟩ := hsettled.mem_iff.mp ho
    exact hmatched.clearBut hsound (ClearBut.enter hclear n) o ho (by simpa using hne)

/-- A call that avoids the sentinel leaves no order there. -/
theorem BookView.Effect.clear {b : OrderBook} {v v' : BookView} {call : Call}
    {trades : List (Order × Int)} (heffect : v.Effect call trades v') (h : b.Shows v)
    (hcall : AvoidsSentinel b call) (hclear : v.All (·.price ≠ invalidPrice)) :
    v'.All (·.price ≠ invalidPrice) := by
  have hkeeps : ∀ Fits : Order → Prop, (∀ {o}, Fits o → o.price ≠ invalidPrice) →
      v.Enters Fits call → v'.All (·.price ≠ invalidPrice) := fun _ hfits henters =>
    heffect.invariant h.sound _ (·.All (·.price ≠ invalidPrice)) henters
      (fun hchange => hchange.all hfits (fun hx => hx) fun hx => hx) hclear
  cases call with
  | newOrder n =>
    by_cases hfit : v.Accepts n → n.order.price ≠ invalidPrice
    · exact hkeeps _ id hfit
    · obtain ⟨hacc, hprice⟩ := Classical.not_imp.mp hfit
      have hterms := hcall (h.admits_iff.mpr hacc)
      split at hterms
      · rename_i hty
        have hside : n.side ≠ .bid := by
          rintro hbid
          rw [NewOrder.order, if_pos hty, if_pos hbid] at hprice
          exact hprice (show maxPrice ≠ invalidPrice by decide)
        refine heffect.clear_of_unfilled h.sound hty (decide_eq_false hside) ?_ hclear
        rw [h.volumeOf] at hterms
        exact hterms.resolve_left hside
      · rename_i hty
        rw [← n.price_order hty] at hterms
        exact absurd hterms hprice
  | cancel id => exact hkeeps (fun _ => False) False.elim trivial
  | modify id price qty =>
    refine hkeeps (·.price ≠ invalidPrice) (fun ho => ho) fun o ho hid hpos hle _ => ?_
    change (reentry o price qty).price ≠ invalidPrice
    rw [price_reentry]
    exact hcall o (h.orderOf_eq_some_iff.mpr ⟨ho, hid⟩) hpos hle

/-- A book shows whether an order of its view is at the sentinel. -/
theorem OrderBook.Shows.sentinelFree_iff {b : OrderBook} {v : BookView} (h : b.Shows v) :
    b.SentinelFree ↔ v.All (·.price ≠ invalidPrice) := by
  constructor
  · intro hfree o ho hprice
    have hqueue := hfree o.side.isBid
    rw [h.queueOf] at hqueue
    exact BookView.level_ne_nil_iff.mpr ⟨o, ho, rfl, hprice⟩ hqueue
  · intro hclear s
    rw [h.queueOf]
    by_contra hne
    obtain ⟨o, ho, hat⟩ := BookView.level_ne_nil_iff.mp hne
    exact hclear o ho hat.2

/-- Calls that avoid the sentinel leave no order there. -/
theorem MatchingEngine.run_sentinelFree (fees : FeeSchedule) {calls : List (HashOrder × Call)}
    (hcalls : (MatchingEngine.init fees).RunMeets AvoidsSentinel calls) :
    (MatchingEngine.init fees).RunAlways SentinelFree calls := by
  have hstep : ∀ {b v call trades b' v'}, OrderBook.Shows b v → v.All (·.price ≠ invalidPrice) →
      b.SentinelFree → AvoidsSentinel b call → v.Effect call trades v' → OrderBook.Shows b' v' →
      v'.All (·.price ≠ invalidPrice) ∧ (b'.SentinelFree ↔ True) := by
    intro b v call trades b' v' h hclear _ hcall heffect h'
    have hclear' := heffect.clear h hcall hclear
    exact ⟨hclear', iff_of_true (h'.sentinelFree_iff.mpr hclear') trivial⟩
  have hempty : OrderBook.init.SentinelFree := fun s => by cases s <;> rfl
  exact (MatchingEngine.runAlways_iff hstep OrderBook.shows_init
    (OrderBook.shows_init.sentinelFree_iff.mp hempty) hempty hcalls).mpr
      (runMeets_of_forall (P := fun _ => True) (fun _ _ => trivial) _)

/-- As long as no order is at the sentinel, calls do the same under all iteration orders. -/
theorem MatchingEngine.run_congr {e : MatchingEngine} {v : BookView} (h : e.book.Shows v)
    {calls calls' : List (HashOrder × Call)}
    (hsame : calls.map Prod.snd = calls'.map Prod.snd) (hfree : e.RunAlways SentinelFree calls) :
    e.run calls = e.run calls' := by
  induction calls generalizing e v calls' with
  | nil => rw [List.map_eq_nil_iff.mp hsame.symm]
  | cons c calls ih =>
    obtain _ | ⟨c', calls'⟩ := calls'
    · cases hsame
    · obtain ⟨ord, call⟩ := c
      obtain ⟨ord', call'⟩ := c'
      obtain ⟨rfl, hrest⟩ := List.cons.inj hsame
      obtain ⟨hfirst, e₁, hcall, hlater⟩ := hfree
      obtain ⟨e', trades, v', hcall', h', -⟩ := perform_spec h ord call
      obtain rfl := Option.some.inj (hcall.symm.trans hcall')
      rw [run, run, ← perform_congr h (h.sentinelFree_iff.mp hfirst) ord ord', hcall]
      exact ih h' hrest hlater

/-- A depth query does not depend on the iteration order. -/
theorem OrderBook.Shows.getDepth_congr {b : OrderBook} {v : BookView} (h : b.Shows v)
    (ord ord' : HashOrder) (s : Bool) (count : Nat) :
    b.getDepth ord s count = b.getDepth ord' s count := by
  obtain ⟨ps, hrep, -, -⟩ := h
  rw [getDepth_eq, getDepth_eq]
  refine Ranking.top_eq_of_perm (fun _ _ => better_asymm) (ranked_trans s)
    (hrep.toStored.collected_distinct ord s) ?_
  rw [hrep.toStored.collected_eq, hrep.toStored.collected_eq]
  exact ((ord.perm _).trans (ord'.perm _).symm).map _

/-- Two engines that are given the same calls, none of which leaves an order at the sentinel price,
end in the same state and with the same snapshots, whatever the iteration orders of their maps. -/
theorem run_replays (fees : FeeSchedule) (calls calls' : List (HashOrder × Call))
    (hsame : calls.map Prod.snd = calls'.map Prod.snd)
    (hfree : (MatchingEngine.init fees).RunAlways SentinelFree calls) :
    ∃ e, (MatchingEngine.init fees).run calls = some e ∧
      (MatchingEngine.init fees).run calls' = some e ∧
      ∀ ord ord', e.getBookSnapshot ord = e.getBookSnapshot ord' := by
  obtain ⟨e, v, hrun, h, -⟩ := MatchingEngine.run_rule (fun _ => True) (fun _ _ => True)
    (fun _ _ _ _ _ => trivial) OrderBook.shows_init (e := MatchingEngine.init fees) trivial
    (MatchingEngine.runMeets_of_forall (P := fun _ => True) (fun _ _ => trivial) _)
  refine ⟨e, hrun, ?_, fun ord ord' => ?_⟩
  · rw [← MatchingEngine.run_congr OrderBook.shows_init hsame hfree, hrun]
  · rw [getBookSnapshot, getBookSnapshot, h.getDepth_congr ord ord' true,
      h.getDepth_congr ord ord' false]

/-- The iteration order that visits the least recently written entry first. -/
def HashOrder.oldest : HashOrder := ⟨List.reverse, List.reverse_perm⟩

/-- Two asks, a market buy order for one of them and a modify that is refused. -/
theorem run_replays_two_asks :
    ∃ e, (MatchingEngine.init {}).run
        [(HashOrder.recent, .newOrder ⟨1, .ask, .limit, 101, 5, 0, 0⟩),
          (HashOrder.recent, .newOrder ⟨2, .ask, .limit, 100, 7, 0, 0⟩),
          (HashOrder.recent, .newOrder ⟨3, .bid, .market, 0, 7, 0, 0⟩),
          (HashOrder.recent, .modify 2 invalidPrice 7)] = some e ∧
      (MatchingEngine.init {}).run
        [(HashOrder.oldest, .newOrder ⟨1, .ask, .limit, 101, 5, 0, 0⟩),
          (HashOrder.recent, .newOrder ⟨2, .ask, .limit, 100, 7, 0, 0⟩),
          (HashOrder.oldest, .newOrder ⟨3, .bid, .market, 0, 7, 0, 0⟩),
          (HashOrder.oldest, .modify 2 invalidPrice 7)] = some e ∧
      ∀ ord ord', e.getBookSnapshot ord = e.getBookSnapshot ord' := by
  refine run_replays {} _ _ rfl (run_sentinelFree {} ⟨fun _ => ?_, fun e he => ?_⟩)
  · exact show (101 : Int) ≠ invalidPrice by decide
  obtain rfl := Option.some.inj he
  refine ⟨fun _ => ?_, fun e he => ?_⟩
  · exact show (100 : Int) ≠ invalidPrice by decide
  obtain rfl := Option.some.inj he
  refine ⟨fun _ => Or.inl rfl, fun e he => ⟨fun o ho => ?_, fun _ _ => trivial⟩⟩
  obtain rfl := Option.some.inj he
  cases ho

-- A market sell order that was filled stays at the sentinel and hides an ask from some scans.
example :
    let calls : List Call := [.newOrder ⟨1, .bid, .limit, 100, 5, 0, 0⟩,
      .newOrder ⟨2, .ask, .market, 0, 5, 0, 0⟩, .newOrder ⟨3, .ask, .limit, 101, 5, 0, 0⟩,
      .newOrder ⟨4, .ask, .limit, 102, 5, 0, 0⟩, .cancel 3]
    ((MatchingEngine.init {}).run (calls.map (HashOrder.recent, ·))).map (·.book.bestAsk) =
        some invalidPrice ∧
      ((MatchingEngine.init {}).run (calls.map (HashOrder.oldest, ·))).map (·.book.bestAsk) =
        some 102 := by
  decide

end LiquidityArena

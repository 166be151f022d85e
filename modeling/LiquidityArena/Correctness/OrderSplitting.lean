import LiquidityArena.View.FeeTotals
import LiquidityArena.View.OneSide

/-!
# Splitting an order

An order for two parts and two orders in a row for the parts take the same from the other
side. The loop of the first part may end within a maker, with a maker or where the book
does not cross any more; the second part goes on from there, and what it meets is what the
order for both would have met.
-/

namespace LiquidityArena

open MatchingEngine OrderBook

/-- Two limit orders of the same side and price that together ask for what the first one asks. -/
structure NewOrder.SplitInto (n first second : NewOrder) : Prop where
  limit : n.type = .limit ∧ first.type = .limit ∧ second.type = .limit
  side : first.side = n.side ∧ second.side = n.side
  price : first.price = n.price ∧ second.price = n.price
  priced : 0 < n.price
  parts : 0 < first.quantity ∧ 0 < second.quantity
  quantity : n.quantity = first.quantity + second.quantity
  ids : first.id ≠ second.id

private theorem NewOrder.SplitInto.valid {n first second : NewOrder}
    (h : n.SplitInto first second) :
    n.Valid ∧ first.Valid ∧ second.Valid := by
  have hvalid : ∀ m : NewOrder, m.type = .limit → 0 < m.price → 0 < m.quantity → m.Valid := by
    intro m hty hprice hqty
    exact ⟨not_le.mpr hqty, fun hbad => not_le.mpr hprice hbad.2, by simp [hty]⟩
  obtain ⟨⟨hn, hf, hs⟩, -, ⟨hfp, hsp⟩, hprice, ⟨hfq, hsq⟩, hqty, -⟩ := h
  exact ⟨hvalid n hn hprice (by omega), hvalid first hf (by omega) hfq,
    hvalid second hs (by omega) hsq⟩

namespace BookView

variable {v v' v₁ v₂ v₃ w : BookView} {i i' m : Order} {n first second : NewOrder} {q t : Int}
  {trades trades₁ trades₂ : List (Order × Int)} {call : Call}

/-- What limit orders guarantee of a view whatever their side bytes are. -/
structure Limited (v : BookView) : Prop extends v.Standing where
  limit : v.All (·.type = .limit)
  balanced : ∀ s t, v.BalancedAt Order.remaining s t

private theorem Limited.sound (hv : v.Limited) : v.Sound := (hv.opposed true).sound

private theorem limited_empty : Limited ⟨[], fun _ _ => 0, fun _ => invalidPrice⟩ :=
  ⟨standing_empty, by simp [All], fun _ _ => rfl⟩

private theorem Effect.limited (h : v.Effect call trades v') (hcall : call.Limits)
    (hv : v.Limited) :
    v'.Limited := by
  have hkept := h.limit_balanced hv.sound (fun n hn => ?_) hv.limit hv.balanced
  · exact ⟨h.standing hcall.rests hv.toStanding, hkept.1, hkept.2⟩
  · subst hn
    exact hcall

/-- An accepted order of another side byte rests as it is. -/
theorem Effect.rested_of_not_named (h : v.Effect (.newOrder n) trades v') (hacc : v.Accepts n)
    (hty : n.type ≠ .market) (hside : ¬ n.side.Named) : trades = [] ∧ v' = v.enter n.order := by
  cases h with
  | refused hno => exact absurd hacc hno
  | rested _ _ _ => exact ⟨rfl, rfl⟩
  | matched _ hcross _ _ => exact absurd (hcross hty).1 hside

/-- The order that enters, on the terms it was sent with. -/
theorem alike_order {n n' : NewOrder} (hn : n.type = .limit) (hn' : n'.type = .limit)
    (hside : n'.side = n.side) (hprice : n'.price = n.price) : Alike n.order n'.order := by
  refine ⟨?_, ?_, ?_⟩
  · rw [n.side_order, n'.side_order, hside]
  · rw [n.price_order (by simp [hn]), n'.price_order (by simp [hn']), hprice]
  · simp [NewOrder.type_order, hn, hn']

/-- The loop of a new limit order finds limit orders on the other side. -/
theorem Limited.plain (hv : v.Limited) (hacc : v.Accepts n) (hty : n.type = .limit) :
    (v.enter n.order).Plain !n.order.side.isBid := by
  refine ⟨(hv.opposed _).enter_other hacc, fun o ho => ?_⟩
  rcases List.mem_append.mp ho with ho | ho
  · simp [hv.limit o ho]
  · rw [List.mem_singleton.mp ho]
    simp [NewOrder.type_order, hty]

/-- Orders of another side byte rest one after the other. -/
theorem enter_split (hsplit : n.SplitInto first second) (v : BookView) :
    AgreeOn (!n.side.isBid) (v.enter n.order) ((v.enter first.order).enter second.order) ∧
      (v.enter n.order).depth Order.remaining n.side.isBid n.price =
        ((v.enter first.order).enter second.order).depth Order.remaining n.side.isBid n.price := by
  obtain ⟨⟨hn, hf, hs⟩, ⟨hfs, hss⟩, ⟨hfp, hsp⟩, -, -, hqty, -⟩ := hsplit
  have hwhole := agreeOn_enter v n.order
  have hfirst := agreeOn_enter v first.order
  have hsecond := agreeOn_enter (v.enter first.order) second.order
  rw [NewOrder.side_order] at hwhole hfirst hsecond
  rw [hfs] at hfirst
  rw [hss] at hsecond
  refine ⟨(hwhole.symm.trans hfirst).trans hsecond, ?_⟩
  have hd₁ := depth_enter (v := v) (n := first) (by simp [hf])
  have hd₂ := depth_enter (v := v.enter first.order) (n := second) (by simp [hs])
  rw [hfs, hfp] at hd₁
  rw [hss, hsp] at hd₂
  rw [depth_enter (by simp [hn]), hd₂, hd₁, hqty, add_assoc]

/-- One order for two parts and two orders for the parts leave the same market. -/
theorem Effect.split (hsplit : n.SplitInto first second) (hv : v.Limited) (hv₂ : v₂.Limited)
    (hacc : v.Accepts n) (hacc₁ : v.Accepts first) (hacc₂ : v₂.Accepts second)
    (whole : v.Effect (.newOrder n) trades v₁) (part₁ : v.Effect (.newOrder first) trades₁ v₂)
    (part₂ : v₂.Effect (.newOrder second) trades₂ v₃) :
    AgreeOn (!n.side.isBid) v₁ v₃ ∧
      (∀ f, weighed f trades = weighed f trades₁ + weighed f trades₂) ∧
      v₁.depth Order.remaining n.side.isBid n.price =
        v₃.depth Order.remaining n.side.isBid n.price := by
  have ⟨⟨hn, hf, hs⟩, ⟨hfs, hss⟩, ⟨hfp, hsp⟩, _, _, hqty, _⟩ := hsplit
  have htn : n.type ≠ .market := by simp [hn]
  have htf : first.type ≠ .market := by simp [hf]
  have hts : second.type ≠ .market := by simp [hs]
  by_cases hside : n.side.Named
  · obtain ⟨w, i, hwhole, hagree, hdepth⟩ := whole.outcome hv.sound hacc htn hside
    obtain ⟨w₁, j, hfirst, hagree₁, hdepth₁⟩ := part₁.outcome hv.sound hacc₁ htf (hfs ▸ hside)
    obtain ⟨w₂, k, hsecond, hagree₂, hdepth₂⟩ := part₂.outcome hv₂.sound hacc₂ hts (hss ▸ hside)
    have hplain := hv.plain hacc hn
    have hplain₁ := hv.plain hacc₁ hf
    have hplain₂ := hv₂.plain hacc₂ hs
    have henter := agreeOn_enter v n.order
    have henter₁ := agreeOn_enter v first.order
    have henter₂ := agreeOn_enter v₂ second.order
    rw [hfs] at hagree₁ hdepth₁
    rw [hss] at hagree₂ hdepth₂
    rw [hfp] at hdepth₁
    rw [hsp] at hdepth₂
    simp only [NewOrder.side_order, hfs, hss] at hplain hplain₁ hplain₂ henter henter₁ henter₂
    have hsplit := fun f => hfirst.split hsecond hwhole (by rwa [n.side_order])
      (by rwa [n.side_order]) (by rwa [n.side_order])
      (by rw [n.side_order]; exact henter.symm.trans henter₁)
      (by rw [n.side_order]; exact hagree₁.trans henter₂) (alike_order hn hf hfs hfp)
      (alike_order hn hs hss hsp) (by simpa using hacc₁.valid.quantity_pos.le)
      (by simpa using hacc₂.valid.quantity_pos.le) (by simpa using hqty) f
    obtain ⟨hsame, -, hleft⟩ := hsplit fun _ _ => 0
    rw [n.side_order] at hsame
    refine ⟨(hagree.symm.trans hsame).trans hagree₂, fun f => (hsplit f).2.1, ?_⟩
    omega
  · obtain ⟨rfl, rfl⟩ := whole.rested_of_not_named hacc htn hside
    obtain ⟨rfl, rfl⟩ := part₁.rested_of_not_named hacc₁ htf (hfs ▸ hside)
    obtain ⟨rfl, rfl⟩ := part₂.rested_of_not_named hacc₂ hts (hss ▸ hside)
    obtain ⟨hsame, hdepth⟩ := enter_split hsplit v
    exact ⟨hsame, fun f => rfl, hdepth⟩

end BookView

/-- A new order adds at most itself to the book. -/
theorem BookView.Effect.length_le {v v' : BookView} {n : NewOrder} {trades : List (Order × Int)}
    (h : v.Effect (.newOrder n) trades v') (hv : v.Sound) (hv' : v'.Sound) :
    v'.orders.length ≤ v.orders.length + 1 := by
  have hsub : v'.orders.map (·.id) ⊆ n.id :: v.orders.map (·.id) := by
    intro id hid
    obtain ⟨x, hx, rfl⟩ := List.mem_map.mp hid
    rcases h.ids hv x hx with hnew | ⟨o, ho, hold⟩
    · exact hnew ▸ List.mem_cons_self
    · exact hold ▸ List.mem_cons_of_mem _ (List.mem_map_of_mem ho)
  have hle := (List.subperm_of_subset hv'.distinct hsub).length_le
  simpa using hle

/-- What the fills give in total to the order of an id at a price. -/
def filledAt (fills : List FillMsg) (id : OrderId) (price : Int) : Int :=
  ((fills.filter fun fill => fill.makerId = id ∧ fill.price = price).map FillMsg.quantity).sum

section Weighed

variable (fees : FeeSchedule) (takerId : OrderId) (trades : List (Order × Int))

private theorem filledAt_tradeMsgs (id : OrderId) (price : Int) :
    filledAt (tradeMsgs fees takerId trades) id price =
      weighed (fun id' price' => if id' = id ∧ price' = price then 1 else 0) trades := by
  induction trades with
  | nil => rfl
  | cons trade trades ih =>
    rw [weighed_cons, ← ih]
    simp only [filledAt, tradeMsgs, fillMsg, List.map_cons, List.filter_cons]
    by_cases hid : trade.1.id = id ∧ trade.1.price = price
    · simp only [hid, and_self, decide_true, if_true, List.map_cons, List.sum_cons, one_mul]
    · simp only [hid, decide_false, Bool.false_eq_true, if_false, zero_mul, zero_add]

private theorem rebates_tradeMsgs : fees.rebates (tradeMsgs fees takerId trades) =
    weighed (fun _ price => price * fees.makerRebateBps) trades := by
  rw [FeeSchedule.rebates, tradeMsgs, List.map_map, weighed]
  refine congrArg List.sum (List.map_congr_left fun trade _ => ?_)
  simp only [Function.comp_apply, fillMsg]
  ring

private theorem charges_tradeMsgs : fees.charges (tradeMsgs fees takerId trades) =
    weighed (fun _ price => price * fees.takerFeeBps) trades := by
  rw [FeeSchedule.charges, tradeMsgs, List.map_map, weighed]
  refine congrArg List.sum (List.map_congr_left fun trade _ => ?_)
  simp only [Function.comp_apply, fillMsg]
  ring

end Weighed

/-- The two engines show the same market to an order of side `s` at a price: the same other side,
the same fills for every maker, the same rest at the price and the same fees. -/
structure SameMarket (s : Bool) (price : Int) (e e' : MatchingEngine) (fills fills' : List FillMsg) :
    Prop where
  queue : ∀ t, e.book.queueOf (!s) t = e'.book.queueOf (!s) t
  level : ∀ t, e.book.levelOf (!s) t = e'.book.levelOf (!s) t
  best : e.book.best (!s) = e'.book.best (!s)
  makers : ∀ id t, filledAt fills id t = filledAt fills' id t
  resting : ((e.book.queueOf s price).map Order.remaining).sum =
    ((e'.book.queueOf s price).map Order.remaining).sum
  depth : (e.book.levelOf s price).map Prod.fst = (e'.book.levelOf s price).map Prod.fst
  rebates : e.totalMakerRebates = e'.totalMakerRebates
  charges : e.totalTakerFees = e'.totalTakerFees
  exactRebates : e.fees.rebates fills = e'.fees.rebates fills'
  exactCharges : e.fees.charges fills = e'.fees.charges fills'

/-- An order of two parts and the two orders for the parts can be entered. -/
structure OrderBook.RoomFor (b : OrderBook) (n first second : NewOrder) : Prop where
  whole : b.getOrder n.id = none
  first : b.getOrder first.id = none
  second : b.getOrder second.id = none
  slots : 2 ≤ b.pool.available

namespace OrderBook.Shows

variable {b : OrderBook} {v v₂ : BookView} {n first second : NewOrder}

/-- The published depth of a level is the sum of its queue, in 32 bits. -/
theorem published (h : b.Shows v) (hv : v.Limited) (s : Bool) (t : Int) :
    (b.levelOf s t).map Prod.fst = if v.depth Order.remaining s t = 0 then none
      else some (toInt32 (v.depth Order.remaining s t)) := by
  have hempty : v.level s t = [] ↔ v.depth Order.remaining s t = 0 := by
    constructor
    · intro hnil
      rw [BookView.depth, BookView.sumOver, show v.orders.filter (fun o => decide (o.At s t)) = [] from
        hnil]
      rfl
    · intro hzero
      by_contra hne
      obtain ⟨o, ho, hat⟩ := BookView.level_ne_nil_iff.mp hne
      have hle := hv.sound.remaining_le_sumOver ho (P := fun o => o.At s t) (decide_eq_true hat)
      have hpos := hv.live o ho
      rw [BookView.depth] at hzero
      omega
  rw [h.levelOf, ← hv.balanced s t]
  simp only [hempty]
  split <;> rfl

private theorem resting (h : b.Shows v) (s : Bool) (t : Int) :
    ((b.queueOf s t).map Order.remaining).sum = v.depth Order.remaining s t := by
  rw [h.queueOf]
  rfl

/-- The second part can be entered after the first one. -/
theorem accepts_second (h : b.Shows v) (hroom : b.RoomFor n first second)
    (hsplit : n.SplitInto first second) {trades : List (Order × Int)}
    (heffect : v.Effect (.newOrder first) trades v₂) (hv₂ : v₂.Sound) : v₂.Accepts second := by
  have hlen := heffect.length_le h.sound hv₂
  have hslots := hroom.slots
  rw [ObjectPool.available, h.allocatedCount] at hslots
  refine ⟨hsplit.valid.2.2, fun x hx => ?_, by omega⟩
  rcases heffect.ids h.sound x hx with hid | ⟨o, ho, hid⟩
  · rw [hid]
    exact hsplit.ids
  · rw [← hid]
    exact (h.getOrder_eq_none_iff.mp hroom.second) o ho

end OrderBook.Shows

/-- What agreeing views and equal sums say about the two engines. -/
theorem sameMarket_of_agree {e e' : MatchingEngine} {v v' : BookView} {s : Bool} {price : Int}
    {before fills fills' : List FillMsg} (h : e.book.Shows v) (h' : e'.book.Shows v')
    (hv : v.Limited) (hv' : v'.Limited) (hagree : BookView.AgreeOn (!s) v v')
    (hdepth : v.depth Order.remaining s price = v'.depth Order.remaining s price)
    (ha : e.Accounts) (ha' : e'.Accounts) (hfees : e'.fees = e.fees)
    (hlog : e.fills = before ++ fills) (hlog' : e'.fills = before ++ fills')
    (hmakers : ∀ id t, filledAt fills id t = filledAt fills' id t)
    (hrebates : e.fees.rebates fills = e.fees.rebates fills')
    (hcharges : e.fees.charges fills = e.fees.charges fills') :
    SameMarket s price e e' fills fills' where
  queue t := by rw [h.queueOf, h'.queueOf, hagree.level]
  level t := by rw [h.levelOf, h'.levelOf, hagree.level, hagree.total]
  best := by rw [h.best, h'.best, hagree.best]
  makers := hmakers
  resting := by rw [h.resting, h'.resting, hdepth]
  depth := by rw [h.published hv, h'.published hv', hdepth]
  rebates := by
    rw [ha.rebates, ha'.rebates, hfees, hlog, hlog', FeeSchedule.rebates_append, hrebates,
      FeeSchedule.rebates_append]
  charges := by
    rw [ha.charges, ha'.charges, hfees, hlog, hlog', FeeSchedule.charges_append, hcharges,
      FeeSchedule.charges_append]
  exactRebates := by rw [hfees, hrebates]
  exactCharges := by rw [hfees, hcharges]

private theorem filledAt_append (fills fills' : List FillMsg) (id : OrderId) (price : Int) :
    filledAt (fills ++ fills') id price = filledAt fills id price + filledAt fills' id price := by
  rw [filledAt, List.filter_append, List.map_append, List.sum_append]
  rfl

/-- After every run of limit orders, cancels and modifies, an order and the two orders it is split
into leave the same market. -/
theorem run_splitting_order (fees : FeeSchedule) (calls : List (HashOrder × Call))
    (hcalls : ∀ c ∈ calls, c.2.Limits) :
    ∃ e, (MatchingEngine.init fees).run calls = some e ∧
      ∀ (n first second : NewOrder) (ord ord₁ ord₂ : HashOrder), n.SplitInto first second →
        e.book.RoomFor n first second →
        ∃ e₁ e₂ e₃ fills fills', e.perform ord (.newOrder n) = some e₁ ∧
          e.perform ord₁ (.newOrder first) = some e₂ ∧
          e₂.perform ord₂ (.newOrder second) = some e₃ ∧ e₁.fills = e.fills ++ fills ∧
          e₃.fills = e.fills ++ fills' ∧ SameMarket n.side.isBid n.price e₁ e₃ fills fills' := by
  obtain ⟨e, v, hrun, hshows, hv⟩ := MatchingEngine.run_rule BookView.Limited (fun _ => Call.Limits)
    (fun _ hv hcall heffect _ => heffect.limited hcall hv)
    (e := MatchingEngine.init fees) OrderBook.shows_init BookView.limited_empty
    (MatchingEngine.runMeets_of_forall hcalls _)
  have haccounts := (accounts_init fees).run OrderBook.shows_init hrun
  refine ⟨e, hrun, fun n first second ord ord₁ ord₂ hsplit hroom => ?_⟩
  obtain ⟨e₁, trades, v₁, hcall, hshows₁, heffect, hfees, hfills⟩ :=
    perform_spec hshows ord (.newOrder n)
  obtain ⟨e₂, trades₁, v₂, hcall₁, hshows₂, heffect₁, hfees₁, hfills₁⟩ :=
    perform_spec hshows ord₁ (.newOrder first)
  obtain ⟨e₃, trades₂, v₃, hcall₂, hshows₃, heffect₂, hfees₂, hfills₂⟩ :=
    perform_spec hshows₂ ord₂ (.newOrder second)
  obtain ⟨hvn, hvf, hvs⟩ := hsplit.valid
  have hslot : 0 < e.book.pool.available := Nat.lt_of_lt_of_le Nat.zero_lt_two hroom.slots
  have hacc := hshows.admits_iff.mp ⟨hvn, hroom.whole, hslot⟩
  have hacc₁ := hshows.admits_iff.mp ⟨hvf, hroom.first, hslot⟩
  have hacc₂ := hshows.accepts_second hroom hsplit heffect₁ hshows₂.sound
  have hv₁ := heffect.limited hsplit.limit.1 hv
  have hv₂ := heffect₁.limited hsplit.limit.2.1 hv
  have hv₃ := heffect₂.limited hsplit.limit.2.2 hv₂
  obtain ⟨hagree, hsum, hdepth⟩ := heffect.split hsplit hv hv₂ hacc hacc₁ hacc₂ heffect₁ heffect₂
  have haccounts₁ := haccounts.perform hshows hcall
  have haccounts₃ := (haccounts.perform hshows hcall₁).perform hshows₂ hcall₂
  rw [hfees₁] at hfees₂ hfills₂
  rw [hfills₁, List.append_assoc] at hfills₂
  refine ⟨e₁, e₂, e₃, _, _, hcall, hcall₁, hcall₂, hfills, hfills₂, sameMarket_of_agree hshows₁ hshows₃
    hv₁ hv₃ hagree hdepth haccounts₁ haccounts₃ (hfees₂.trans hfees.symm) hfills hfills₂ ?_ ?_ ?_⟩
  · intro id t
    simp only [filledAt_append, filledAt_tradeMsgs]
    exact hsum _
  · simp only [hfees, FeeSchedule.rebates_append, rebates_tradeMsgs]
    exact hsum _
  · simp only [hfees, FeeSchedule.charges_append, charges_tradeMsgs]
    exact hsum _

/-- A bid for 7 and bids for 4 and 3 against asks of 5 and 4, of which the second one is dearer. -/
theorem run_splitting_order_within_maker :
    ∃ e e₁ e₂ e₃ fills fills', (MatchingEngine.init {}).run
        [(HashOrder.recent, .newOrder ⟨1, .ask, .limit, 100, 5, 0, 0⟩),
          (HashOrder.recent, .newOrder ⟨2, .ask, .limit, 101, 4, 0, 0⟩)] = some e ∧
      e.perform HashOrder.recent (.newOrder ⟨3, .bid, .limit, 101, 7, 0, 0⟩) = some e₁ ∧
      e.perform HashOrder.recent (.newOrder ⟨3, .bid, .limit, 101, 4, 0, 0⟩) = some e₂ ∧
      e₂.perform HashOrder.recent (.newOrder ⟨4, .bid, .limit, 101, 3, 0, 0⟩) = some e₃ ∧
      e₁.fills = e.fills ++ fills ∧ e₃.fills = e.fills ++ fills' ∧
      fills.map (·.quantity) = [5, 2] ∧ fills'.map (·.quantity) = [4, 1, 2] ∧
      SameMarket true 101 e₁ e₃ fills fills' := by
  obtain ⟨e, hrun, hall⟩ := run_splitting_order {}
    [(HashOrder.recent, .newOrder ⟨1, .ask, .limit, 100, 5, 0, 0⟩),
      (HashOrder.recent, .newOrder ⟨2, .ask, .limit, 101, 4, 0, 0⟩)] (by decide)
  have hsplit : NewOrder.SplitInto ⟨3, .bid, .limit, 101, 7, 0, 0⟩ ⟨3, .bid, .limit, 101, 4, 0, 0⟩
      ⟨4, .bid, .limit, 101, 3, 0, 0⟩ :=
    ⟨by decide, by decide, by decide, by decide, by decide, by decide, by decide⟩
  have hempty : e.fills = [] := by
    obtain rfl := Option.some.inj hrun
    decide
  obtain ⟨e₁, e₂, e₃, fills, fills', hwhole, hfirst, hsecond, hfills, hfills', hsame⟩ :=
    hall _ _ _ HashOrder.recent HashOrder.recent HashOrder.recent hsplit (by
      obtain rfl := Option.some.inj hrun
      exact ⟨by decide, by decide, by decide, by decide⟩)
  refine ⟨e, e₁, e₂, e₃, fills, fills', hrun, hwhole, hfirst, hsecond, hfills, hfills', ?_, ?_, hsame⟩
  · rw [hempty, List.nil_append] at hfills
    rw [← hfills]
    obtain rfl := Option.some.inj hrun
    obtain rfl := Option.some.inj hwhole
    decide
  · rw [hempty, List.nil_append] at hfills'
    rw [← hfills']
    obtain rfl := Option.some.inj hrun
    obtain rfl := Option.some.inj hfirst
    obtain rfl := Option.some.inj hsecond
    decide

end LiquidityArena

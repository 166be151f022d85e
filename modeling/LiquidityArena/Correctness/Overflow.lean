import LiquidityArena.Correctness.MatchingLoop
import LiquidityArena.View.Capacity
import LiquidityArena.View.Executions

/-!
# Signed arithmetic that stays within its types

Depth counters and the walk of `queue_volume_ahead` are computed in 32 bits, fees and their
totals in 64 bits, and nothing bounds an order from above. The predicates below list the
results of these computations, call by call and in the order of the source. They are in
range in every run whose orders find room at the levels they enter and could not lead to
fills with more fees than a 64-bit total holds.
-/

namespace LiquidityArena

open OrderBook

namespace OrderBook

/-- The sum that `push_back` stores when an order enters its level. -/
def EntryFits (b : OrderBook) (o : Order) : Prop :=
  FitsInt32 (b.countedAt o.side.isBid o.price + BookView.entryDepth o)

instance (b : OrderBook) (o : Order) : Decidable (b.EntryFits o) :=
  inferInstanceAs (Decidable (FitsInt32 _))

/-- The difference that is stored when an amount is taken off the counter of a level. -/
def ReductionFits (b : OrderBook) (isBid : Bool) (price amount : Int) : Prop :=
  ∀ level, (b.levels isBid).lookup price = some level → FitsInt32 (level.totalQuantity - amount)

/-- The computation of `remove_order_from_level`. -/
def RemovalFits (b : OrderBook) (p : Ptr) : Prop :=
  b.ReductionFits (b.pool.get p).side.isBid (b.pool.get p).price (b.pool.get p).remaining

/-- The computations of `replenish_iceberg`: the order is removed and its next slice pushed. -/
def ReplenishFits (b : OrderBook) (p : Ptr) : Prop :=
  let o := b.pool.get p
  ∀ level, (b.levels o.side.isBid).lookup o.price = some level →
    FitsInt32 (level.totalQuantity - o.remaining) ∧
      FitsInt32 (level.totalQuantity - o.remaining + min o.displayQty o.hiddenQty)

/-- The sums on the walks of `queue_volume_ahead`, for every level and order. -/
def WalksFit (b : OrderBook) : Prop :=
  ∀ isBid price level, (b.levels isBid).lookup price = some level → ∀ p steps,
    FitsInt32 (((((level.queue b.pool).takeWhile fun cur => cur ≠ p).take steps).map
      fun cur => (b.pool.get cur).remaining).sum)

end OrderBook

/-- The products of `maker_rebate` and `taker_fee`. -/
def FeeFits (price qty bps : Int) : Prop := FitsInt64 (price * qty) ∧ FitsInt64 (price * qty * bps)

namespace MatchingEngine

/-- The computations of `execute_fill`. -/
structure FillFits (e : MatchingEngine) (maker taker : Ptr) (fillQty : Int) : Prop where
  makerLevel : e.book.ReductionFits (e.book.pool.get maker).side.isBid
    (e.book.pool.get maker).price fillQty
  takerLevel : (e.book.adjustLevel (e.book.pool.get maker).side.isBid
    (e.book.pool.get maker).price (·.reduceQuantity fillQty)).ReductionFits
      (e.book.pool.get taker).side.isBid (e.book.pool.get taker).price fillQty
  makerRebate : FeeFits (e.book.pool.get maker).price fillQty e.fees.makerRebateBps
  makerFee : FitsInt64 (-e.fees.makerRebate (e.book.pool.get maker).price fillQty)
  takerFee : FeeFits (e.book.pool.get maker).price fillQty e.fees.takerFeeBps
  makerRebates : FitsInt64
    (e.totalMakerRebates + e.fees.makerRebate (e.book.pool.get maker).price fillQty)
  takerFees : FitsInt64
    (e.totalTakerFees + e.fees.takerFee (e.book.pool.get maker).price fillQty)

/-- The computations for a maker after its fill. -/
def SettleFits (e : MatchingEngine) (maker : Ptr) : Prop :=
  let m := e.book.pool.get maker
  if m.isFilled then e.book.RemovalFits maker
  else if m.type = .iceberg then
    m.displayQty - m.filledQuantity.tmod m.displayQty ≤ 0 ∧ m.hasHiddenQty →
      e.book.ReplenishFits maker
  else True

/-- The computations of one pass of the matching loop. -/
def PassFits (e : MatchingEngine) (incoming : Ptr) : Prop :=
  e.TakesMaker incoming → ∀ maker, e.book.bestOrder (e.opposite incoming) = some maker →
    let fillQty := min (e.book.pool.get incoming).remaining
      (makerAvailable (e.book.pool.get maker))
    e.FillFits maker incoming fillQty ∧ (e.executeFill maker incoming fillQty).SettleFits maker

/-- The computations of a call: the order enters, every pass of its loop, and the removal that
follows; the removal of a cancel; and the changes of a modify. -/
def CallFits (e : MatchingEngine) (ord : HashOrder) : Call → Prop
  | .newOrder n => (e.book.Admits n → e.book.EntryFits n.order) ∧
      ∀ p e₀, e.entered n = some (p, e₀) → ∀ e', Loop.Reaches (matchStep · ord p) e₀ e' →
        e'.PassFits p ∧ (e'.matchStep ord p = none →
          (n.type = .market ↔ 0 < (e'.book.pool.get p).remaining) → e'.book.RemovalFits p)
  | .cancel id => ∀ p, e.book.getOrder id = some p → e.book.RemovalFits p
  | .modify id price qty => ∀ p, e.book.getOrder id = some p →
      let o := e.book.pool.get p
      0 < qty → qty ≤ o.remaining →
        if price = o.price then qty < o.remaining →
          e.book.ReductionFits o.side.isBid o.price (o.quantity - o.filledQuantity - qty)
        else e.book.RemovalFits p ∧
          (e.book.discard ord id p).EntryFits (BookView.reentry o price qty)

/-- No computation of the call overflows, nor do walks over the queues that it leaves. -/
def ComputesWithin (e : MatchingEngine) (ord : HashOrder) (call : Call) : Prop :=
  e.CallFits ord call ∧ ∀ e', e.perform ord call = some e' → e'.book.WalksFit

/-- Every call of the run has the property in the state that it finds. -/
def EachCall (P : MatchingEngine → HashOrder → Call → Prop) (e : MatchingEngine) :
    List (HashOrder × Call) → Prop
  | [] => True
  | (ord, call) :: calls => P e ord call ∧ ∀ e', e.perform ord call = some e' → EachCall P e' calls

end MatchingEngine

/-- The level of an order that enters can take it: with the order its counter and its volume are
32-bit numbers, and so is the counter when all of the volume is gone. -/
structure OrderBook.HasRoom (b : OrderBook) (o : Order) : Prop where
  counter : b.countedAt o.side.isBid o.price + BookView.entryDepth o < 2 ^ 31
  volume : b.restingAt o.side.isBid o.price + o.remaining < 2 ^ 31
  debt : -2 ^ 31 ≤ b.countedAt o.side.isBid o.price + BookView.entryDepth o -
    (b.restingAt o.side.isBid o.price + o.remaining)

/-- An order that enters finds room, and no fills it could lead to exhaust the total of the fees. -/
def MatchingEngine.Affords (e : MatchingEngine) : Call → Prop
  | .newOrder n => e.book.Admits n → e.book.HasRoom n.order ∧
      ∀ fills, e.book.Conceivable n fills →
        |e.totalTakerFees| + turnover fills * e.fees.takerFeeBps < 2 ^ 63
  | .cancel _ => True
  | .modify id price qty => ∀ o, e.book.orderOf id = some o → 0 < qty → qty ≤ o.remaining →
      price ≠ o.price → e.book.HasRoom (BookView.reentry o price qty)

namespace OrderBook

variable {b : OrderBook} {v : BookView} {o : Order} {x : Int}

private theorem Shows.hasRoom_iff (h : b.Shows v) : b.HasRoom o ↔ v.HasRoom o := by
  constructor
  · rintro ⟨hcounter, hvolume, hdebt⟩
    rw [h.countedAt] at hcounter hdebt
    rw [h.restingAt] at hvolume hdebt
    exact ⟨hcounter, hvolume, hdebt⟩
  · rintro ⟨hcounter, hvolume, hdebt⟩
    rw [← h.countedAt] at hcounter hdebt
    rw [← h.restingAt] at hvolume hdebt
    exact ⟨hcounter, hvolume, hdebt⟩

/-- An order that finds room can be counted into its level. -/
theorem Shows.entryFits (h : b.Shows v) (hroom : v.HasRoom o) (hpos : 0 ≤ o.remaining) :
    b.EntryFits o := by
  rw [EntryFits, h.countedAt]
  exact hroom.fits h.sound hpos

/-- What remains of an order, or a part of it, can be taken off the counter of its level. -/
theorem Shows.reductionFits (h : b.Shows v) (hroom : v.Room) (ho : o ∈ v.orders) (hx : 0 ≤ x)
    (hle : x ≤ o.remaining) : b.ReductionFits o.side.isBid o.price x := by
  intro level hl
  rw [(h.lookup_eq_some hl).2]
  refine (hroom _ _).fits hx (hle.trans ?_)
  exact h.sound.remaining_le_sumOver ho (decide_eq_true ⟨rfl, rfl⟩)

private theorem Shows.removalFits (h : b.Shows v) (hroom : v.Room) {p : Ptr}
    (hp : (b.pool.get p).unlink ∈ v.orders) : b.RemovalFits p := by
  have hfits := h.reductionFits hroom hp (h.sound.nonneg _ hp) le_rfl
  exact hfits

/-- The order under an id, and what the book shows without it. -/
theorem Shows.found (h : b.Shows v) {id : OrderId} {p : Ptr} (hp : b.getOrder id = some p)
    (ord : HashOrder) : (b.pool.get p).unlink ∈ v.orders ∧ (b.pool.get p).id = id ∧
      ∃ w, (b.discard ord id p).Shows w ∧ v.Dropped (b.pool.get p).unlink w := by
  obtain ⟨ps, hrep, rfl, hv⟩ := h
  obtain ⟨hmem, rfl⟩ := (hrep.map id p).mp hp
  obtain ⟨hrep', hdrop⟩ := hrep.discard ord hmem
  exact ⟨mem_orders.mpr ⟨p, hmem, rfl⟩, rfl, _, ⟨_, hrep', rfl, hdrop.sound hv⟩, hdrop⟩

/-- A walk adds up a part of what remains at its level. -/
theorem Shows.walksFit (h : b.Shows v) (hroom : v.Room) : b.WalksFit := by
  intro s t level hl p steps
  have hqueue : ((level.queue b.pool).map fun cur => (b.pool.get cur).unlink) = v.level s t := by
    rw [← h.queueOf, OrderBook.queueOf, hl]
  have hremaining : ((level.queue b.pool).map fun cur => (b.pool.get cur).remaining) =
      (v.level s t).map Order.remaining := by
    rw [← hqueue, List.map_map]
    rfl
  have hnonneg : ∀ x ∈ (v.level s t).map Order.remaining, 0 ≤ x := by
    intro x hx
    obtain ⟨o, ho, rfl⟩ := List.mem_map.mp hx
    exact h.sound.nonneg o (BookView.mem_level.mp ho).1
  have hpart := (((List.take_sublist steps _).trans (List.takeWhile_sublist
    (l := level.queue b.pool) fun cur => cur ≠ p)).map fun cur => (b.pool.get cur).remaining)
  rw [hremaining] at hpart
  have hle := hpart.sum_le_sum hnonneg
  have hge := List.sum_nonneg fun x hx => hnonneg x (hpart.subset hx)
  have hvolume : ((v.level s t).map Order.remaining).sum < 2 ^ 31 := (hroom s t).volume
  exact ⟨le_trans (by norm_num) hge, hle.trans_lt hvolume⟩

end OrderBook

namespace MatchingEngine

/-- Between two calls all levels have room, and the totals of the engine are exact. -/
structure Solvent (e : MatchingEngine) (v : BookView) : Prop where
  shows : e.book.Shows v
  room : v.Room
  fees : e.fees = {}
  accounts : e.Accounts
  ratio : 3 * e.fees.rebates e.fills = 2 * e.fees.charges e.fills
  bounded : |e.fees.charges e.fills| < 2 ^ 63

/-- A loop that was entered in `e` is underway, and has led to the fills. -/
structure Underway (e : MatchingEngine) (n : NewOrder) (p : Ptr) (e' : MatchingEngine)
    (w : BookView) (fills : List (Order × Int)) : Prop where
  passing : e'.Passing p w
  room : w.Room
  progress : BookView.Progress e.book n w (e'.book.pool.get p).unlink fills
  fees : e'.fees = e.fees
  accounts : e'.Accounts
  rebates : e'.fees.rebates e'.fills =
    e.fees.rebates e.fills + notional fills * e.fees.makerRebateBps
  charges : e'.fees.charges e'.fills =
    e.fees.charges e.fills + notional fills * e.fees.takerFeeBps

variable {e e' e'' : MatchingEngine} {v w w' : BookView} {n : NewOrder} {p : Ptr}
  {fills : List (Order × Int)} {ord : HashOrder}

private theorem Solvent.totalTakerFees (h : e.Solvent v) :
    e.totalTakerFees = e.fees.charges e.fills := by
  have hbounded := abs_lt.mp h.bounded
  rw [h.accounts.charges, toInt64_eq_self (by omega) (by omega)]

/-- The order enters, and nothing else happens before the loop. -/
theorem entered_ledger {e₀ : MatchingEngine} (h : e.entered n = some (p, e₀)) :
    ∃ book, e₀ = { e with totalOrders := e.totalOrders + 1, book } := by
  unfold entered at h
  split at h
  · split at h
    · split at h
      · cases h
      · obtain ⟨-, rfl⟩ := Prod.mk.inj (Option.some.inj h)
        exact ⟨_, rfl⟩
    · generalize (if n.type = .iceberg then
          e.book.addIcebergOrder n.id n.side n.price n.quantity n.displayQty n.ts
        else e.book.addOrder n.id n.side n.price n.quantity n.ts) = placed at h
      obtain ⟨_ | p', book⟩ := placed
      · cases h
      · dsimp only at h
        split at h
        · obtain ⟨-, rfl⟩ := Prod.mk.inj (Option.some.inj h)
          exact ⟨_, rfl⟩
        · cases h
  · cases h

private theorem Underway.start (hs : e.Solvent v) (h : e.entered n = some (p, e'))
    (hroom : v.HasRoom n.order) :
    ∃ w, Underway e n p e' w [] := by
  obtain ⟨hacc, hpassing, hget⟩ := entered_passing hs.shows h
  have hpos := hacc.valid.quantity_pos.le
  obtain ⟨book, rfl⟩ := entered_ledger h
  refine ⟨_, hpassing, hs.room.enter hroom hs.shows.sound (by simpa using hpos), ?_, rfl,
    ⟨hs.accounts.rebates, hs.accounts.charges⟩, ?_, ?_⟩
  · rw [hget]
    exact BookView.Progress.start hs.shows hpos
  · simp [notional]
  · simp [notional]

/-- A pass adds a fill. -/
theorem Underway.step (hs : e.Solvent v) (h : Underway e n p e' w fills)
    (hpass : e'.matchStep ord p = some e'') : ∃ w' fills', Underway e n p e'' w' fills' := by
  obtain ⟨ps, hrep, hp, rfl, hv⟩ := h.passing
  rcases hrep.matchStep_cases hp ord with
    ⟨-, hexit⟩ | ⟨m, q, book, ps', hsome, hrep', hp', hget, htrade⟩
  · cases hexit.symm.trans hpass
  · obtain rfl := Option.some.inj (hsome.symm.trans hpass)
    obtain ⟨o, hprice, hprogress⟩ := h.progress.trade hs.shows htrade hv
    have haccounts := h.accounts.record m (e'.book.pool.get p).id q
    have hworth : notional (fills ++ [(o, q)]) = notional fills + notional [(m, q)] := by
      rw [notional_append]
      simp [notional, hprice]
    refine ⟨_, _, ⟨ps', hrep', hp', rfl, htrade.sound hv⟩, (htrade.changes hv _).room hv h.room,
      hget.symm ▸ hprogress, h.fees, ⟨haccounts.rebates, haccounts.charges⟩, ?_, ?_⟩
    · change e'.fees.rebates (e'.fills ++ tradeMsgs e'.fees (e'.book.pool.get p).id [(m, q)]) = _
      rw [FeeSchedule.rebates_append, FeeSchedule.rebates_tradeMsgs, h.rebates, hworth, h.fees]
      ring
    · change e'.fees.charges (e'.fills ++ tradeMsgs e'.fees (e'.book.pool.get p).id [(m, q)]) = _
      rw [FeeSchedule.charges_append, FeeSchedule.charges_tradeMsgs, h.charges, hworth, h.fees]
      ring

/-- The bounds behind the fees of one fill: `charges` and `rebates` are the totals before it, `worth`
is its value, and all that could be charged is bounded. -/
theorem fees_fit {charges rebates worth before : Int} (hratio : 3 * rebates = 2 * charges)
    (hcharges : |charges| ≤ before) (hbound : before + |worth| * 3 < 2 ^ 63) :
    FitsInt64 worth ∧ FitsInt64 (worth * 2) ∧ FitsInt64 (-(worth * 2)) ∧ FitsInt64 (worth * 3) ∧
      FitsInt64 (rebates + worth * 2) ∧ FitsInt64 (charges + worth * 3) := by
  have hworth := abs_le.mp (le_refl |worth|)
  have hbefore := abs_le.mp hcharges
  have hnonneg := abs_nonneg worth
  simp only [FitsInt64]
  omega

/-- The fill of a trade takes nothing off a counter that it does not hold. -/
theorem Underway.levelsFit (h : Underway e n p e' w fills) {maker : Ptr} {q : Int}
    (htrade : w.Trade (e'.book.pool.get p).unlink (e'.book.pool.get maker).unlink q w') :
    e'.book.ReductionFits (e'.book.pool.get maker).side.isBid (e'.book.pool.get maker).price q ∧
      (e'.book.adjustLevel (e'.book.pool.get maker).side.isBid (e'.book.pool.get maker).price
        (·.reduceQuantity q)).ReductionFits (e'.book.pool.get p).side.isBid
          (e'.book.pool.get p).price q := by
  have hshows := h.passing.shows
  obtain ⟨hq, hqi, hqm⟩ := htrade.qty_bounds hshows.sound
  have hmaker := hshows.reductionFits h.room htrade.maker_at.1 hq hqm
  have htaker := hshows.reductionFits h.room htrade.taker hq hqi
  refine ⟨hmaker, fun level hl => htaker level ?_⟩
  -- The taker's level is on the other side, where the maker's fill changes nothing.
  have hside : (e'.book.pool.get maker).side.isBid ≠ (e'.book.pool.get p).side.isBid := by
    have hopposite : (e'.book.pool.get maker).side.isBid = !(e'.book.pool.get p).side.isBid :=
      htrade.maker_at.2.1
    simp [hopposite]
  rw [lookup_adjustLevel] at hl
  simpa [hside] using hl

/-- A maker that was filled can be removed, and no other maker is touched. -/
theorem Underway.settleFits (h : Underway e n p e' w fills) {maker : Ptr} {q : Int} {ps : List Ptr}
    (hrep : e'.book.Rep ps) (hview : e'.book.view ps = w) (hm : maker ∈ ps) (hp : p ∈ ps)
    (hne : maker ≠ p)
    (htrade : w.Trade (e'.book.pool.get p).unlink (e'.book.pool.get maker).unlink q w') :
    (e'.executeFill maker p q).SettleFits maker := by
  have hsound := h.passing.shows.sound
  obtain ⟨hq, hqi, hqm⟩ := htrade.qty_bounds hsound
  obtain ⟨book, hfill, hrep', hview', hget⟩ := hrep.executeFill hm hp hne q
  rw [hview] at hview'
  have hshows : book.Shows (w.fill (e'.book.pool.get maker).unlink (e'.book.pool.get p).unlink q) :=
    ⟨ps, hrep', hview', htrade.sound_fill hsound⟩
  have hroom := BookView.Change.room
    (.fill htrade.maker_at.1 htrade.taker (htrade.id_ne hsound) hq hqm hqi) hsound h.room
  have hmem : (book.pool.get maker).unlink ∈
      (w.fill (e'.book.pool.get maker).unlink (e'.book.pool.get p).unlink q).orders := by
    rw [← hview']
    exact mem_orders.mpr ⟨maker, hm, rfl⟩
  have hbook : (e'.executeFill maker p q).book = book := by
    rw [hfill]
    rfl
  rw [SettleFits, hbook]
  split
  · exact hshows.removalFits hroom hmem
  · split
    · rename_i hice
      have hdisplay := hshows.display hmem hice
      rw [Order.displayQty_unlink] at hdisplay
      have hmod := Int.tmod_lt_of_pos (book.pool.get maker).filledQuantity hdisplay
      rintro ⟨hle, -⟩
      omega
    · trivial

/-- What has been charged so far in the loop, and in what ratio. -/
theorem Underway.charged (hs : e.Solvent v) (h : Underway e n p e' w fills) :
    3 * e'.fees.rebates e'.fills = 2 * e'.fees.charges e'.fills ∧
      |e'.fees.charges e'.fills| ≤ |e.totalTakerFees| + turnover fills * 3 := by
  have hworth := abs_notional_le fun f hf => (h.progress.conceivable.maker f hf).2.2
  have hratio := hs.ratio
  rw [h.rebates, h.charges, hs.totalTakerFees]
  simp only [hs.fees] at hratio ⊢
  refine ⟨by linarith, (abs_add_le ..).trans ?_⟩
  rw [abs_mul, show |(3 : Int)| = 3 from rfl]
  omega

/-- The pass that follows computes nothing out of range. -/
theorem Underway.passFits (hs : e.Solvent v) (h : Underway e n p e' w fills)
    (hafford : ∀ fills, e.book.Conceivable n fills →
      |e.totalTakerFees| + turnover fills * e.fees.takerFeeBps < 2 ^ 63) : e'.PassFits p := by
  intro htakes maker hmaker
  obtain ⟨ps, hrep, hp, rfl, hv⟩ := h.passing
  obtain ⟨hm, hne, book, ps', -, -, -, -, htrade⟩ := hrep.trade_bestOrder hp HashOrder.recent
    htakes.1 htakes.2.1 htakes.2.2 hmaker
  rw [Order.remaining_unlink] at htrade
  obtain ⟨o, hprice, hprogress⟩ := h.progress.trade hs.shows htrade hv
  obtain ⟨hmakerLevel, htakerLevel⟩ := h.levelsFit htrade
  obtain ⟨hratio, hcharged⟩ := h.charged hs
  set q := min (e'.book.pool.get p).remaining (makerAvailable (e'.book.pool.get maker))
  have hq := (htrade.qty_bounds hv).1
  have hfees : e'.fees = {} := h.fees.trans hs.fees
  have hbound : |e.totalTakerFees| + turnover fills * 3 +
      |(e'.book.pool.get maker).price * q| * 3 < 2 ^ 63 := by
    have hlater := hafford _ hprogress.conceivable
    have hlast : turnover [(o, q)] = |(e'.book.pool.get maker).price * q| := by
      rw [abs_mul, abs_of_nonneg hq, show (e'.book.pool.get maker).price = o.price from hprice.symm]
      simp [turnover]
    rw [turnover_append, hlast, hs.fees] at hlater
    dsimp only at hlater
    omega
  obtain ⟨hworth, hrebate, hfee, hcharge, hrebates, hcharges⟩ := fees_fit hratio hcharged hbound
  have hcharged' := abs_le.mp hcharged
  have hnonneg := abs_nonneg ((e'.book.pool.get maker).price * q)
  have htotal : e'.totalTakerFees = e'.fees.charges e'.fills := by
    rw [h.accounts.charges, toInt64_eq_self (by omega) (by omega)]
  have htotal' : e'.totalMakerRebates = e'.fees.rebates e'.fills := by
    rw [h.accounts.rebates, toInt64_eq_self (by omega) (by omega)]
  refine ⟨⟨hmakerLevel, htakerLevel, ?_, ?_, ?_, ?_, ?_⟩, h.settleFits hrep rfl hm hp hne htrade⟩
  all_goals simp only [htotal, htotal', FeeSchedule.makerRebate, FeeSchedule.takerFee, FeeFits]
  all_goals simp only [hfees]
  · exact ⟨hworth, hrebate⟩
  · rwa [toInt64_eq_self hrebate.1 hrebate.2]
  · exact ⟨hworth, hcharge⟩
  · rw [toInt64_eq_self hrebate.1 hrebate.2]
    rwa [hfees] at hrebates
  · rw [toInt64_eq_self hcharge.1 hcharge.2]
    rwa [hfees] at hcharges

/-- A call that the engine affords computes nothing out of range. -/
theorem Solvent.callFits (hs : e.Solvent v) {call : Call} (hafford : e.Affords call)
    (ord : HashOrder) : e.CallFits ord call := by
  cases call with
  | newOrder n =>
    refine ⟨fun hadmits => ?_, fun p e₀ hentered e' hreaches => ?_⟩
    · refine hs.shows.entryFits (hs.shows.hasRoom_iff.mp (hafford hadmits).1) ?_
      simpa using hadmits.1.quantity_pos.le
    · have hacc := (entered_passing hs.shows hentered).1
      obtain ⟨hroom, hbound⟩ := hafford (hs.shows.admits_iff.mpr hacc)
      obtain ⟨w₀, hstart⟩ := Underway.start hs hentered (hs.shows.hasRoom_iff.mp hroom)
      have hstep : ∀ {e' e''}, (∃ w fills, Underway e n p e' w fills) →
          e'.matchStep ord p = some e'' → ∃ w fills, Underway e n p e'' w fills := by
        rintro e' e'' ⟨w, fills, hunder⟩ hpass
        exact hunder.step hs hpass
      obtain ⟨w, fills, hunder⟩ := hreaches.invariant
        (fun e' => ∃ w fills, Underway e n p e' w fills) hstep ⟨w₀, [], hstart⟩
      refine ⟨hunder.passFits hs hbound, fun _ _ => hunder.passing.shows.removalFits hunder.room ?_⟩
      obtain ⟨ps, hrep, hp, rfl, -⟩ := hunder.passing
      exact mem_orders.mpr ⟨p, hp, rfl⟩
  | cancel id =>
    intro p hp
    exact hs.shows.removalFits hs.room (hs.shows.found hp ord).1
  | modify id price qty =>
    intro p hp o hpos hle
    obtain ⟨hmem, hid, w, hshows, hdrop⟩ := hs.shows.found hp ord
    have hrem : o.remaining = (e.book.pool.get p).unlink.remaining := rfl
    split
    · intro hlt
      have hfits := hs.shows.reductionFits hs.room hmem (x := o.remaining - qty) (by omega)
        (by omega)
      exact hfits
    · rename_i hne
      refine ⟨hs.shows.removalFits hs.room hmem, ?_⟩
      have hroom := hafford _ (hs.shows.orderOf_eq_some_iff.mpr ⟨hmem, hid⟩) hpos hle hne
      have hfits := hshows.entryFits ((hs.shows.hasRoom_iff.mp hroom).dropped hs.shows.sound hmem
        hdrop hne) (by simpa using hpos.le)
      exact hfits

/-- The trades of a call that the engine affords do not exhaust the total of the fees. -/
theorem Solvent.tradesFit (hs : e.Solvent v) {call : Call} {trades : List (Order × Int)}
    (hafford : e.Affords call) (heffect : v.Effect call trades w) :
    |e.fees.charges e.fills| + |notional trades| * 3 < 2 ^ 63 := by
  by_cases hnew : ∃ n, call = .newOrder n ∧ v.Accepts n
  · obtain ⟨n, rfl, hacc⟩ := hnew
    obtain ⟨fills, hconceivable, hworth⟩ := heffect.conceivable hs.shows hacc
    have hbound := (hafford (hs.shows.admits_iff.mpr hacc)).2 fills hconceivable
    have hle := abs_notional_le fun f hf => (hconceivable.maker f hf).2.2
    rw [hs.totalTakerFees, hs.fees] at hbound
    dsimp only at hbound
    rw [← hworth, hs.fees]
    omega
  · have hnone : trades = [] := by
      cases heffect with
      | refused _ => rfl
      | rested hacc _ _ => exact absurd ⟨_, rfl, hacc⟩ hnew
      | matched hacc _ _ _ => exact absurd ⟨_, rfl, hacc⟩ hnew
      | cancelled _ _ => rfl
      | notFound _ => rfl
      | modified _ _ _ _ => rfl
      | unmodified _ => rfl
    have hbounded := hs.bounded
    simpa [hnone, notional] using hbounded

/-- A call that the engine affords leads from such a state to such a state. -/
theorem Solvent.perform (hs : e.Solvent v) {call : Call} (hafford : e.Affords call)
    (ord : HashOrder) : ∃ e' v', e.perform ord call = some e' ∧ e'.Solvent v' := by
  obtain ⟨e', trades, v', hcall, hshows, heffect, hfees, hfills⟩ := perform_spec hs.shows ord call
  have henters : v.Enters v.HasRoom call := by
    cases call with
    | newOrder n => exact fun hacc => hs.shows.hasRoom_iff.mp (hafford (hs.shows.admits_iff.mpr hacc)).1
    | cancel id => trivial
    | modify id price qty =>
      intro o ho hid hpos hle hne
      have hroom := hafford o (hs.shows.orderOf_eq_some_iff.mpr ⟨ho, hid⟩) hpos hle hne
      exact hs.shows.hasRoom_iff.mp hroom
  have hroom := heffect.room hs.shows.sound hs.room henters
  have haccounts := hs.accounts.perform hs.shows hcall
  have hratio := hs.ratio
  refine ⟨e', v', hcall, hshows, hroom, hfees.trans hs.fees, haccounts, ?_, ?_⟩
  · rw [hfees, hfills, FeeSchedule.rebates_append, FeeSchedule.charges_append,
      FeeSchedule.rebates_tradeMsgs, FeeSchedule.charges_tradeMsgs]
    simp only [hs.fees] at hratio ⊢
    linarith
  · have hbound := hs.tradesFit hafford heffect
    rw [hfees, hfills, FeeSchedule.charges_append, FeeSchedule.charges_tradeMsgs]
    refine (abs_add_le ..).trans_lt (lt_of_eq_of_lt ?_ hbound)
    rw [abs_mul, hs.fees]
    rfl

private theorem solvent_init :
    (MatchingEngine.init {}).Solvent ⟨[], fun _ _ => 0, fun _ => invalidPrice⟩ where
  shows := shows_init
  room := BookView.room_empty
  fees := rfl
  accounts := accounts_init {}
  ratio := rfl
  bounded := by norm_num [FeeSchedule.charges, MatchingEngine.init]

/-- What every call that is affordable computes. -/
theorem Solvent.run (hs : e.Solvent v) {calls : List (HashOrder × Call)}
    (hafford : e.EachCall (fun e _ call => e.Affords call) calls) :
    ∃ e', e.run calls = some e' ∧ e.EachCall ComputesWithin calls := by
  induction calls generalizing e v with
  | nil => exact ⟨e, rfl, trivial⟩
  | cons c calls ih =>
    obtain ⟨ord, call⟩ := c
    obtain ⟨hcall, hlater⟩ := hafford
    obtain ⟨e₁, v₁, hperform, hs₁⟩ := hs.perform hcall ord
    obtain ⟨e', hrun, hrest⟩ := ih hs₁ (hlater e₁ hperform)
    have honly : ∀ e₂, e.perform ord call = some e₂ → e₂ = e₁ := fun e₂ h =>
      Option.some.inj (h.symm.trans hperform)
    refine ⟨e', ?_, ⟨hs.callFits hcall ord, fun e₂ h => ?_⟩, fun e₂ h => ?_⟩
    · rw [MatchingEngine.run, hperform]
      exact hrun
    · rw [honly e₂ h]
      exact hs₁.shows.walksFit hs₁.room
    · rw [honly e₂ h]
      exact hrest

end MatchingEngine

/-- In a run with the default fees in which every order that enters finds room at its level and could
not lead to fills that exhaust the total of the fees, no signed computation overflows. -/
theorem run_without_overflow (calls : List (HashOrder × Call))
    (hafford : (MatchingEngine.init {}).EachCall (fun e _ call => e.Affords call) calls) :
    ∃ e, (MatchingEngine.init {}).run calls = some e ∧
      (MatchingEngine.init {}).EachCall MatchingEngine.ComputesWithin calls :=
  MatchingEngine.solvent_init.run hafford

/-- A bid that takes a part of an ask. -/
theorem run_without_overflow_two_orders :
    ∃ e, (MatchingEngine.init {}).run
        [(HashOrder.recent, .newOrder ⟨1, .ask, .limit, 100, 5, 0, 0⟩),
          (HashOrder.recent, .newOrder ⟨2, .bid, .limit, 100, 3, 0, 0⟩)] = some e ∧
      (MatchingEngine.init {}).EachCall MatchingEngine.ComputesWithin
        [(HashOrder.recent, .newOrder ⟨1, .ask, .limit, 100, 5, 0, 0⟩),
          (HashOrder.recent, .newOrder ⟨2, .bid, .limit, 100, 3, 0, 0⟩)] := by
  have hbound : ∀ x : Int, x ≤ 100 * 3 → |0| + x * 3 < 2 ^ 63 := by
    intro x hx
    rw [abs_zero]
    omega
  refine run_without_overflow _ ⟨fun _ => ⟨⟨by decide, by decide, by decide⟩, fun fills h => ?_⟩,
    fun e he => ?_⟩
  · have hle := h.turnover_le le_rfl (by decide)
    exact hbound _ (hle.trans (by norm_num))
  · obtain rfl := Option.some.inj he
    refine ⟨fun _ => ⟨⟨by decide, by decide, by decide⟩, fun fills h => ?_⟩, fun _ _ => trivial⟩
    exact hbound _ (h.turnover_le (by norm_num) (by decide))

/-- An ask of 2147483647 at 100 rests. A second one does not fit into the counter of the level. -/
theorem second_ask_overflows :
    ∃ e, (MatchingEngine.init {}).run
        [(HashOrder.recent, .newOrder ⟨1, .ask, .limit, 100, 2147483647, 0, 0⟩)] = some e ∧
      e.book.Admits ⟨2, .ask, .limit, 100, 2147483647, 0, 0⟩ ∧
      ¬ (MatchingEngine.init {}).EachCall MatchingEngine.ComputesWithin
        [(HashOrder.recent, .newOrder ⟨1, .ask, .limit, 100, 2147483647, 0, 0⟩),
          (HashOrder.recent, .newOrder ⟨2, .ask, .limit, 100, 2147483647, 0, 0⟩)] := by
  refine ⟨_, rfl, by decide, fun hwithin => ?_⟩
  have hfits := (hwithin.2 _ rfl).1.1.1 (by decide)
  revert hfits
  decide

end LiquidityArena

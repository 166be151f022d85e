import LiquidityArena.Correctness.PriceTimePriority
import LiquidityArena.Lib.Ranking
import LiquidityArena.View.OneSide

/-!
# Snapshots of the top of the book

A depth query collects the levels of a side in whatever order the hash map yields them,
sorts them by price and cuts the list off. What it returns is the top of the book, with
the depth that the levels have cached. The cache is a 32-bit sum, so a snapshot is exact as
long as no level holds more than that.
-/

namespace LiquidityArena

open MatchingEngine OrderBook

namespace OrderBook

/-- The list shows the best `count` levels of a side: strictly ordered with the best one first,
each with what remains of its queue, and with nothing left out before the end. -/
structure TopOf (b : OrderBook) (isBid : Bool) (count : Nat) (depth : List DepthLevel) : Prop where
  length : depth.length = min count (b.levels isBid).entries.length
  sorted : depth.Pairwise fun x y => Better isBid x.price y.price
  exact : ∀ d ∈ depth, b.queueOf isBid d.price ≠ [] ∧ d.quantity = b.restingAt isBid d.price
  complete : ∀ t, b.queueOf isBid t ≠ [] →
    (∃ d ∈ depth, d.price = t) ∨ ∀ d ∈ depth, Better isBid d.price t

/-- The part of a snapshot about a side: the best levels, the first of them at the best price, and
zeros in the rest of the arrays. -/
structure ShownBy (b : OrderBook) (isBid : Bool) (best : Int) (num : Nat)
    (prices quantities : List Int) : Prop where
  count : num = min maxDepthLevels (b.levels isBid).entries.length
  top : b.TopOf isBid maxDepthLevels
    (((prices.zip quantities).take num).map fun entry => ⟨entry.1, entry.2⟩)
  first : 0 < num → prices[0]? = some best
  unused : ∀ k, num ≤ k → k < maxDepthLevels → prices[k]? = some 0 ∧ quantities[k]? = some 0

end OrderBook

/-- The snapshot shows both sides of the book. -/
structure MatchingEngine.SnapshotExact (e : MatchingEngine) (msg : BookUpdateMsg) : Prop where
  bids : e.book.ShownBy true e.book.bestBid msg.numBidLevels msg.bidPrices msg.bidQuantities
  asks : e.book.ShownBy false e.book.bestAsk msg.numAskLevels msg.askPrices msg.askQuantities
  bestBid : msg.bestBid = e.book.bestBid
  bestAsk : msg.bestAsk = e.book.bestAsk

/-- Every depth query and every snapshot of the book is exact. -/
def OrderBook.SnapshotsExact (b : OrderBook) : Prop :=
  (∀ ord isBid count, b.TopOf isBid count (b.getDepth ord isBid count)) ∧
    ∀ e : MatchingEngine, e.book = b → ∀ ord, e.SnapshotExact (e.getBookSnapshot ord)

/-- The call leaves at the level where its order comes to rest no more than a counter holds. -/
def FitsCounters (b : OrderBook) : Call → Prop
  | .newOrder n => b.Admits n → b.restingAt n.side.isBid n.price +
      max 0 (n.quantity - b.volumeTo (!n.side.isBid) n.price) < 2 ^ 31
  | .cancel _ => True
  | .modify id price qty => ∀ o, b.orderOf id = some o → 0 < qty → qty ≤ o.remaining →
      price ≠ o.price → b.restingAt o.side.isBid price + qty < 2 ^ 31

namespace OrderBook

/-- The levels of a side that a depth query collects. -/
def collected (b : OrderBook) (ord : HashOrder) (isBid : Bool) : List DepthLevel :=
  ((ord.arrange (b.levels isBid).entries).filter fun entry => !entry.2.empty).map
    fun entry => ⟨entry.1, entry.2.totalQuantity⟩

/-- The depth of a side is the best of the collected levels. -/
theorem getDepth_eq (b : OrderBook) (ord : HashOrder) (s : Bool) (count : Nat) :
    b.getDepth ord s count =
      Ranking.top (fun x y => Better s x.price y.price) count (b.collected ord s) := rfl

private theorem getDepth_of_collected_eq {b : OrderBook} {ord : HashOrder} {s : Bool}
    {d : DepthLevel}
    (h : b.collected ord s = [d]) : b.getDepth ord s maxDepthLevels = [d] := by
  rw [getDepth_eq, h, Ranking.top, List.mergeSort_singleton]
  rfl

/-- Of two prices only one can be better. -/
theorem better_asymm {s : Bool} {p q : Int} (h : Better s p q) : ¬ Better s q p :=
  fun h' => better_irrefl s p (h.trans h')

/-- Not being better is transitive among levels. -/
theorem ranked_trans (s : Bool) (x y z : DepthLevel) (hxy : ¬ Better s y.price x.price)
    (hyz : ¬ Better s z.price y.price) : ¬ Better s z.price x.price :=
  not_better_trans hyz hxy

namespace Stored

variable {b : OrderBook} {ps : List Ptr}

/-- No level of the book is empty. -/
theorem collected_eq (h : b.Stored ps) (ord : HashOrder) (s : Bool) :
    b.collected ord s = (ord.arrange (b.levels s).entries).map
      fun entry => ⟨entry.1, entry.2.totalQuantity⟩ := by
  rw [collected, List.filter_eq_self.mpr]
  intro entry hentry
  have hmem := (ord.perm _).mem_iff.mp hentry
  have hslot := h.slots s entry.1
  rw [show (b.levels s).lookup entry.1 = some entry.2 from AList.mem_lookup_iff.mpr hmem] at hslot
  rw [Bool.not_eq_true', ← Bool.not_eq_true, hslot.1.empty_iff]
  exact hslot.2.1

private theorem length_collected (h : b.Stored ps) (ord : HashOrder) (s : Bool) :
    (b.collected ord s).length = (b.levels s).entries.length := by
  rw [h.collected_eq, List.length_map, (ord.perm _).length_eq]

/-- The collected levels are those of the book. -/
theorem mem_collected (h : b.Stored ps) {ord : HashOrder} {s : Bool} {d : DepthLevel} :
    d ∈ b.collected ord s ↔
      ∃ level, (b.levels s).lookup d.price = some level ∧ d.quantity = level.totalQuantity := by
  rw [h.collected_eq, List.mem_map]
  constructor
  · rintro ⟨⟨price, level⟩, hentry, rfl⟩
    exact ⟨level, AList.mem_lookup_iff.mpr ((ord.perm _).mem_iff.mp hentry), rfl⟩
  · rintro ⟨level, hl, hq⟩
    refine ⟨⟨d.price, level⟩, (ord.perm _).mem_iff.mpr (AList.mem_lookup_iff.mp hl), ?_⟩
    rw [← hq]

/-- Each price is collected once. -/
theorem collected_distinct (h : b.Stored ps) (ord : HashOrder) (s : Bool) :
    (b.collected ord s).Pairwise fun x y => Better s x.price y.price ∨ Better s y.price x.price := by
  have hnodup : ((ord.arrange (b.levels s).entries).map Sigma.fst).Nodup :=
    ((ord.perm _).map _).nodup_iff.mpr (b.levels s).nodupKeys
  rw [h.collected_eq, List.pairwise_map]
  refine (List.pairwise_map.mp hnodup).imp fun hne => ?_
  by_contra hnot
  rw [not_or] at hnot
  exact hne (eq_of_not_better hnot.1 hnot.2)

end Stored

namespace Shows

variable {b : OrderBook} {v : BookView} {ord : HashOrder} {s : Bool} {t : Int} {count : Nat}

private theorem exists_lookup (h : b.Shows v) (hne : v.level s t ≠ []) :
    ∃ level, (b.levels s).lookup t = some level := by
  rw [← Option.isSome_iff_exists, AList.lookup_isSome, AList.mem_keys]
  exact h.mem_keys_iff.mpr hne

/-- The entries of a depth query are levels with their cached depth. -/
theorem mem_getDepth (h : b.Shows v) {d : DepthLevel} (hd : d ∈ b.getDepth ord s count) :
    v.level s d.price ≠ [] ∧ d.quantity = v.total s d.price := by
  obtain ⟨level, hl, hq⟩ := lookup_of_mem_getDepth hd
  obtain ⟨hne, htotal⟩ := h.lookup_eq_some hl
  exact ⟨hne, hq.trans htotal⟩

private theorem length_getDepth (h : b.Shows v) :
    (b.getDepth ord s count).length = min count (b.levels s).entries.length := by
  obtain ⟨ps, hrep, -, -⟩ := h
  rw [getDepth_eq, Ranking.length_top, hrep.toStored.length_collected]

private theorem sorted_getDepth (h : b.Shows v) (ord : HashOrder) (s : Bool) (count : Nat) :
    (b.getDepth ord s count).Pairwise fun x y => Better s x.price y.price := by
  obtain ⟨ps, hrep, -, -⟩ := h
  exact Ranking.pairwise_top (fun _ _ => better_asymm) (ranked_trans s)
    (hrep.toStored.collected_distinct ord s)

/-- A level that a depth query leaves out is worse than those it returns. -/
theorem getDepth_complete (h : b.Shows v) (ord : HashOrder) (count : Nat) (hne : v.level s t ≠ []) :
    (∃ d ∈ b.getDepth ord s count, d.price = t) ∨
      ∀ d ∈ b.getDepth ord s count, Better s d.price t := by
  obtain ⟨level, hl⟩ := h.exists_lookup hne
  obtain ⟨ps, hrep, -, -⟩ := h
  have hmem : (⟨t, level.totalQuantity⟩ : DepthLevel) ∈ b.collected ord s :=
    hrep.toStored.mem_collected.mpr ⟨level, hl, rfl⟩
  rcases Ranking.mem_top_or_behind (r := fun x y => Better s x.price y.price) (n := count)
    (fun _ _ => better_asymm) (ranked_trans s)
    (hrep.toStored.collected_distinct ord s) hmem with hin | hbehind
  · exact Or.inl ⟨_, hin, rfl⟩
  · exact Or.inr hbehind

/-- A query for all levels returns each of them. -/
theorem mem_getDepth_of_lookup (h : b.Shows v) (ord : HashOrder) {level : PriceLevel}
    (hl : (b.levels s).lookup t = some level) :
    ⟨t, level.totalQuantity⟩ ∈ b.getDepth ord s (b.levels s).entries.length := by
  obtain ⟨ps, hrep, -, -⟩ := h
  rw [getDepth_eq]
  refine Ranking.mem_top_of_length_le (hrep.toStored.mem_collected.mpr ⟨level, hl, rfl⟩) ?_
  rw [hrep.toStored.length_collected]

/-- With exact counters a depth query returns the top of the book. -/
theorem topOf_getDepth (h : b.Shows v) (hexact : ∀ t, v.total s t = b.restingAt s t) :
    b.TopOf s count (b.getDepth ord s count) where
  length := h.length_getDepth
  sorted := h.sorted_getDepth ord s count
  exact d hd := by
    obtain ⟨hne, hq⟩ := h.mem_getDepth hd
    rw [h.queueOf, hq]
    exact ⟨hne, hexact _⟩
  complete t hne := by
    rw [h.queueOf] at hne
    exact h.getDepth_complete ord count hne

/-- The first entry of a depth query is at the best price. -/
theorem head_getDepth (h : b.Shows v) (ha : v.Anchored s) (ht : v.Topped s) {d : DepthLevel}
    (hd : (b.getDepth ord s count).head? = some d) : d.price = b.best s := by
  have hmem := List.mem_of_head? hd
  obtain ⟨hne, -⟩ := h.mem_getDepth hmem
  obtain ⟨hvalid, htop⟩ := ht d.price (BookView.level_ne_nil_iff.mp hne)
  have hbest := BookView.level_ne_nil_iff.mpr (ha.resolve_left hvalid)
  rw [h.best]
  rcases h.getDepth_complete ord count hbest with ⟨d', hd', hprice⟩ | hbehind
  · obtain ⟨rest, hrest⟩ : ∃ rest, b.getDepth ord s count = d :: rest := by
      cases hlist : b.getDepth ord s count with
      | nil => simp [hlist] at hd
      | cons x xs =>
        rw [hlist] at hd
        exact ⟨xs, by rw [Option.some.inj hd]⟩
    have hsorted := h.sorted_getDepth ord s count
    rw [hrest, List.pairwise_cons] at hsorted
    rw [hrest] at hd'
    rcases List.mem_cons.mp hd' with rfl | hlater
    · exact hprice
    · exact absurd (hprice ▸ hsorted.1 d' hlater) htop
  · exact absurd (hbehind d hmem) htop

end Shows

section Padded

variable (depth : List DepthLevel) (size : Nat)

/-- The used part of the two padded arrays is the list they were filled from. -/
theorem map_take_zip_rightpad :
    ((((depth.map (·.price)).rightpad size 0).zip ((depth.map (·.quantity)).rightpad size 0)).take
      depth.length).map (fun entry => (⟨entry.1, entry.2⟩ : DepthLevel)) = depth := by
  have hzip : (((depth.map (·.price)).zip (depth.map (·.quantity))).map
      fun entry => (⟨entry.1, entry.2⟩ : DepthLevel)) = depth := by
    rw [List.zip_map', List.map_map]
    exact List.map_id depth
  rw [List.rightpad, List.rightpad, List.zip_append (by simp), List.take_left' (by simp), hzip]

private theorem getElem?_rightpad_of_le {f : DepthLevel → Int} {k : Nat} (hle : depth.length ≤ k)
    (hk : k < size) : ((depth.map f).rightpad size 0)[k]? = some 0 := by
  rw [List.rightpad, List.getElem?_append_right (by simpa using hle), List.getElem?_replicate,
    if_pos (by simp only [List.length_map]; omega)]

end Padded

/-- A depth query that shows the top of the book, written into the arrays of a snapshot. -/
theorem TopOf.shownBy {b : OrderBook} {s : Bool} {depth : List DepthLevel} {best : Int}
    (h : b.TopOf s maxDepthLevels depth) (hfirst : ∀ d, depth.head? = some d → d.price = best) :
    b.ShownBy s best depth.length ((depth.map (·.price)).rightpad maxDepthLevels 0)
      ((depth.map (·.quantity)).rightpad maxDepthLevels 0) where
  count := h.length
  top := by
    rw [map_take_zip_rightpad]
    exact h
  first hpos := by
    obtain ⟨d, rest, rfl⟩ := List.exists_cons_of_length_pos hpos
    rw [← hfirst d rfl]
    rfl
  unused k hle hk :=
    ⟨getElem?_rightpad_of_le depth maxDepthLevels hle hk,
      getElem?_rightpad_of_le depth maxDepthLevels hle hk⟩

/-- Snapshots are exact when every counter holds the sum of its level. -/
theorem Shows.snapshotsExact_iff {b : OrderBook} {v : BookView} (h : b.Shows v) (hv : v.LimitBook) :
    b.SnapshotsExact ↔ ∀ s t, b.restingAt s t < 2 ^ 31 := by
  have htotal : ∀ s t, v.total s t = toInt32 (b.restingAt s t) := by
    intro s t
    rw [h.restingAt]
    exact hv.balanced s t
  constructor
  · intro hexact s t
    by_cases hnil : v.level s t = []
    · rw [OrderBook.restingAt, h.queueOf, hnil]
      norm_num
    · -- a query for all levels returns this one, with a counter that is a 32-bit number
      obtain ⟨level, hl⟩ := h.exists_lookup hnil
      have hin := h.mem_getDepth_of_lookup HashOrder.recent hl
      have hquantity := ((hexact.1 _ _ _).exact _ hin).2
      obtain ⟨-, hcached⟩ := h.lookup_eq_some hl
      rw [hcached, htotal] at hquantity
      rw [← hquantity]
      exact toInt32_lt _
  · intro hfits
    have hcounter : ∀ s t, v.total s t = b.restingAt s t := by
      intro s t
      have hnonneg : 0 ≤ b.restingAt s t := by
        rw [h.restingAt]
        exact hv.sound.sumOver_nonneg _
      rw [htotal, toInt32_eq_self (by omega) (hfits s t)]
    refine ⟨fun ord s count => h.topOf_getDepth (hcounter s), ?_⟩
    rintro e rfl ord
    exact ⟨(h.topOf_getDepth (hcounter true)).shownBy fun d hd =>
        h.head_getDepth (hv.anchored true) (hv.topped true) hd,
      (h.topOf_getDepth (hcounter false)).shownBy fun d hd =>
        h.head_getDepth (hv.anchored false) (hv.topped false) hd, rfl, rfl⟩

namespace Shows

variable {b b' : OrderBook} {v v' : BookView} {n : NewOrder} {trades : List (Order × Int)}
  {call : Call}

/-- What rests at the level of a new order after it was accepted. -/
theorem restingAt_newOrder (h : b.Shows v) (hv : v.Regular) (hacc : v.Accepts n)
    (hside : n.side.Named) (hty : n.type ≠ .market) (heffect : v.Effect (.newOrder n) trades v')
    (h' : b'.Shows v') : b'.restingAt n.side.isBid n.price = b.restingAt n.side.isBid n.price +
      max 0 (n.quantity - b.volumeTo (!n.side.isBid) n.price) := by
  obtain ⟨w, i, hmatched, -, hdepth⟩ := heffect.outcome hv.sound hacc hty hside
  rw [h.matched_rest hv hacc hty hmatched, Order.remaining_fill, n.remaining_order] at hdepth
  rw [h'.restingAt, h.restingAt, hdepth]
  omega

/-- What rests at the new level of an order that was moved. -/
theorem restingAt_moved (h : b.Shows v) {o : Order} {price qty : Int} (ho : o ∈ v.orders)
    (hmod : v.Modified o price qty v') (hne : price ≠ o.price) (h' : b'.Shows v') :
    b'.restingAt o.side.isBid price = b.restingAt o.side.isBid price + qty := by
  cases hmod with
  | inPlace hprice => exact absurd hprice hne
  | moved _ hdrop =>
    have hold : ¬ o.At o.side.isBid price := fun hat => hne hat.2.symm
    have hnew : (BookView.reentry o price qty).At o.side.isBid price := by
      simp [Order.At]
    rw [h'.restingAt, h.restingAt, BookView.depth_place, hdrop.depth h.sound ho, if_pos hnew,
      if_neg hold, BookView.remaining_reentry, sub_zero]

/-- Elsewhere a call adds nothing to what rests. -/
theorem restingAt_le (h : b.Shows v) (heffect : v.Effect call trades v') (h' : b'.Shows v')
    {s : Bool} {t : Int} (henters : v.Enters (¬ ·.At s t) call) :
    b'.restingAt s t ≤ b.restingAt s t := by
  rw [h.restingAt, h'.restingAt]
  exact heffect.depth_le h.sound henters

/-- A new limit order keeps all sums within the counters exactly if it meets the requirement. -/
theorem fits_newOrder (h : b.Shows v) (hv : v.Regular) (hok : ∀ s t, b.restingAt s t < 2 ^ 31)
    (hlimit : n.type = .limit) (hnamed : AdmitsNamed b (.newOrder n))
    (heffect : v.Effect (.newOrder n) trades v') (h' : b'.Shows v') :
    (∀ s t, b'.restingAt s t < 2 ^ 31) ↔ FitsCounters b (.newOrder n) := by
  by_cases hacc : v.Accepts n
  · have hadmits := h.admits_iff.mpr hacc
    have hty : n.type ≠ .market := by simp [hlimit]
    have hown := h.restingAt_newOrder hv hacc (hnamed hadmits) hty heffect h'
    refine ⟨fun hfits _ => hown ▸ hfits _ _, fun hfits s t => ?_⟩
    by_cases hat : n.order.At s t
    · obtain ⟨rfl, rfl⟩ := hat
      rw [n.side_order, n.price_order hty, hown]
      exact hfits hadmits
    · exact (h.restingAt_le heffect h' fun _ => hat).trans_lt (hok s t)
  · rw [(heffect.of_refused hacc).2] at h'
    refine iff_of_true (fun s t => ?_) fun hadmits => absurd (h.admits_iff.mp hadmits) hacc
    rw [h'.restingAt, ← h.restingAt]
    exact hok s t

/-- A modify keeps all sums within the counters exactly if it meets the requirement. -/
theorem fits_modify {id : OrderId} {price qty : Int} (h : b.Shows v)
    (hok : ∀ s t, b.restingAt s t < 2 ^ 31) (heffect : v.Effect (.modify id price qty) trades v')
    (h' : b'.Shows v') :
    (∀ s t, b'.restingAt s t < 2 ^ 31) ↔ FitsCounters b (.modify id price qty) := by
  cases heffect with
  | @modified o _ _ _ ho hpos hle hmod =>
    have hsame : ∀ x ∈ v.orders, x.id = o.id → x = o := fun x hx hid => h.sound.eq_of_id hx ho hid
    constructor
    · intro hfits x hx _ _ hne
      rw [h.orderOf_eq_some_iff] at hx
      rw [hsame x hx.1 hx.2] at hne ⊢
      rw [← h.restingAt_moved ho hmod hne h']
      exact hfits _ _
    · intro hfits s t
      by_cases hmoved : price ≠ o.price ∧ (BookView.reentry o price qty).At s t
      · obtain ⟨hne, hat⟩ := hmoved
        simp only [Order.At, BookView.side_reentry, BookView.price_reentry] at hat
        rw [← hat.1, ← hat.2, h.restingAt_moved ho hmod hne h']
        exact hfits o (h.orderOf_eq_some_iff.mpr ⟨ho, rfl⟩) hpos hle hne
      · refine (h.restingAt_le (.modified ho hpos hle hmod) h' ?_).trans_lt (hok s t)
        intro x hx hid _ _ hne hat
        rw [hsame x hx hid] at hne hat
        exact hmoved ⟨hne, hat⟩
  | unmodified hno =>
    refine iff_of_true (fun s t => ?_) fun x hx hpos hle => ?_
    · rw [h'.restingAt, ← h.restingAt]
      exact hok s t
    · rw [h.orderOf_eq_some_iff] at hx
      exact absurd ⟨hpos, hle⟩ (hno x hx.1 hx.2)

/-- A call keeps all sums within the counters exactly if it meets the requirement. -/
theorem fits_step (h : b.Shows v) (hv : v.Regular) (hok : ∀ s t, b.restingAt s t < 2 ^ 31)
    (hcall : call.Limits) (hnamed : AdmitsNamed b call) (heffect : v.Effect call trades v')
    (h' : b'.Shows v') : (∀ s t, b'.restingAt s t < 2 ^ 31) ↔ FitsCounters b call := by
  cases call with
  | newOrder n => exact h.fits_newOrder hv hok hcall hnamed heffect h'
  | cancel id =>
    exact iff_of_true (fun s t => (h.restingAt_le heffect h' trivial).trans_lt (hok s t)) trivial
  | modify id price qty => exact h.fits_modify hok heffect h'

/-- A call keeps a book of limit orders one, with all sums within the counters exactly if it meets
the requirement. -/
theorem limitBook_fits_step (h : b.Shows v) (hv : v.LimitBook)
    (hok : ∀ s t, b.restingAt s t < 2 ^ 31) (hcall : call.Limits ∧ AdmitsNamed b call)
    (heffect : v.Effect call trades v') (h' : b'.Shows v') :
    v'.LimitBook ∧ ((∀ s t, b'.restingAt s t < 2 ^ 31) ↔ FitsCounters b call) := by
  obtain ⟨hlimits, hnamed⟩ := hcall
  have hfits := h.enters_of_rests hv.sides hlimits.rests hnamed
  exact ⟨heffect.limitBook hlimits hfits hv,
    h.fits_step hv.toRegular hok hlimits hnamed heffect h'⟩

/-- A call keeps snapshots exact exactly if it meets the requirement. -/
theorem snapshotsExact_step (h : b.Shows v) (hv : v.LimitBook) (hexact : b.SnapshotsExact)
    (hcall : call.Limits ∧ AdmitsNamed b call) (heffect : v.Effect call trades v')
    (h' : b'.Shows v') : v'.LimitBook ∧ (b'.SnapshotsExact ↔ FitsCounters b call) := by
  have hok := (h.snapshotsExact_iff hv).mp hexact
  obtain ⟨hv', hfits⟩ := h.limitBook_fits_step hv hok hcall heffect h'
  rw [h'.snapshotsExact_iff hv']
  exact ⟨hv', hfits⟩

end Shows

private theorem restingAt_init (s : Bool) (t : Int) : OrderBook.init.restingAt s t = 0 := by
  cases s <;> rfl

end OrderBook

/-- A run of limit orders, cancels and modifies whose accepted orders are bids and asks never leaves
more at a level than a counter holds exactly when none of its calls does. -/
theorem run_fitsCounters_iff (fees : FeeSchedule) (calls : List (HashOrder × Call))
    (hcalls : ∀ c ∈ calls, c.2.Limits)
    (hnamed : (MatchingEngine.init fees).RunMeets AdmitsNamed calls) :
    (MatchingEngine.init fees).RunAlways (fun b => ∀ s t, b.restingAt s t < 2 ^ 31) calls ↔
      (MatchingEngine.init fees).RunMeets FitsCounters calls :=
  MatchingEngine.runAlways_iff OrderBook.Shows.limitBook_fits_step OrderBook.shows_init
    BookView.limitBook_empty (fun s t => (restingAt_init s t).trans_lt (by norm_num))
    (hnamed.and_forall hcalls)

/-- A run of limit orders, cancels and modifies whose accepted orders are bids and asks has exact
snapshots throughout exactly when none of its calls leaves more at a level than a counter holds. -/
theorem run_snapshotsExact_iff (fees : FeeSchedule) (calls : List (HashOrder × Call))
    (hcalls : ∀ c ∈ calls, c.2.Limits)
    (hnamed : (MatchingEngine.init fees).RunMeets AdmitsNamed calls) :
    (MatchingEngine.init fees).RunAlways SnapshotsExact calls ↔
      (MatchingEngine.init fees).RunMeets FitsCounters calls :=
  MatchingEngine.runAlways_iff OrderBook.Shows.snapshotsExact_step OrderBook.shows_init
    BookView.limitBook_empty
    ((OrderBook.shows_init.snapshotsExact_iff BookView.limitBook_empty).mpr
      fun s t => (restingAt_init s t).trans_lt (by norm_num))
    (hnamed.and_forall hcalls)

/-- Two asks at different prices and a bid that takes the better one and part of the other. -/
theorem run_snapshotsExact_iff_two_asks :
    (MatchingEngine.init {}).RunAlways SnapshotsExact
        [(HashOrder.recent, .newOrder ⟨1, .ask, .limit, 101, 5, 0, 0⟩),
          (HashOrder.recent, .newOrder ⟨2, .ask, .limit, 100, 7, 0, 0⟩),
          (HashOrder.recent, .newOrder ⟨3, .bid, .limit, 101, 9, 0, 0⟩)] ↔
      (MatchingEngine.init {}).RunMeets FitsCounters
        [(HashOrder.recent, .newOrder ⟨1, .ask, .limit, 101, 5, 0, 0⟩),
          (HashOrder.recent, .newOrder ⟨2, .ask, .limit, 100, 7, 0, 0⟩),
          (HashOrder.recent, .newOrder ⟨3, .bid, .limit, 101, 9, 0, 0⟩)] :=
  run_snapshotsExact_iff {} _ (by decide)
    ⟨fun _ => Or.inr rfl, fun _ _ => ⟨fun _ => Or.inr rfl, fun _ _ =>
      ⟨fun _ => Or.inl rfl, fun _ _ => trivial⟩⟩⟩

/-- Two asks of 2147483647 rest at one price, and a depth query reports -2 there. -/
theorem wrapped_level_depth :
    ∃ e, (MatchingEngine.init {}).run
        [(HashOrder.recent, .newOrder ⟨1, .ask, .limit, 100, 2147483647, 0, 0⟩),
          (HashOrder.recent, .newOrder ⟨2, .ask, .limit, 100, 2147483647, 0, 0⟩)] = some e ∧
      e.book.getDepth HashOrder.recent false maxDepthLevels = [⟨100, -2⟩] ∧
      e.book.restingAt false 100 = 4294967294 ∧ ¬ e.book.SnapshotsExact := by
  have hwrong : ∀ b : OrderBook, b.collected HashOrder.recent false = [⟨100, -2⟩] →
      b.restingAt false 100 = 4294967294 →
      b.getDepth HashOrder.recent false maxDepthLevels = [⟨100, -2⟩] ∧
        b.restingAt false 100 = 4294967294 ∧ ¬ b.SnapshotsExact := by
    intro b hcollected hresting
    have hdepth := OrderBook.getDepth_of_collected_eq hcollected
    refine ⟨hdepth, hresting, fun hexact => ?_⟩
    have hquantity := ((hexact.1 _ _ _).exact ⟨100, -2⟩ (by rw [hdepth]; simp)).2
    simp [hresting] at hquantity
  exact ⟨_, rfl, hwrong _ (by decide) (by decide)⟩

end LiquidityArena

import LiquidityArena.Correctness.PriceTimePriority

/-!
# A cancelled order leaves no trace

Two runs of the abstract book are compared, one with an order `x` that is entered and
later cancelled and one without it. As long as no fill names `x`, deleting it from the
first book gives the second, call by call; the cancel makes the two books the same.
-/

namespace LiquidityArena

open OrderBook

namespace PriceTime

variable {book : Book} {m taker : Entry} {isBid : Bool} {x id : OrderId}

/-- Among finitely many orders of a side one is not beaten. -/
theorem exists_top (hside : ∃ y ∈ book, y.isBid = isBid) :
    ∃ m ∈ book, m.isBid = isBid ∧ ∀ y ∈ book, y.isBid = isBid → ¬ Better isBid y.price m.price := by
  induction book with
  | nil => simp at hside
  | cons a book ih =>
    by_cases hrest : ∃ y ∈ book, y.isBid = isBid
    · obtain ⟨m, hm, hs, htop⟩ := ih hrest
      by_cases ha : a.isBid = isBid ∧ Better isBid a.price m.price
      · refine ⟨a, List.mem_cons_self, ha.1, fun y hy hys => ?_⟩
        rcases List.mem_cons.mp hy with rfl | hy
        · exact better_irrefl _ _
        · exact fun hb => htop y hy hys (hb.trans ha.2)
      · refine ⟨m, List.mem_cons_of_mem _ hm, hs, fun y hy hys => ?_⟩
        rcases List.mem_cons.mp hy with rfl | hy
        · exact fun hb => ha ⟨hys, hb⟩
        · exact htop y hy hys
    · obtain ⟨y, hy, hys⟩ := hside
      rcases List.mem_cons.mp hy with rfl | hy
      · refine ⟨y, List.mem_cons_self, hys, fun z hz hzs => ?_⟩
        rcases List.mem_cons.mp hz with rfl | hz
        · exact better_irrefl _ _
        · exact absurd ⟨z, hz, hzs⟩ hrest
      · exact absurd ⟨y, hy, hys⟩ hrest

private theorem best_eq_none_iff : best book isBid = none ↔ ∀ y ∈ book, y.isBid ≠ isBid := by
  constructor
  · intro hnone y hy hys
    obtain ⟨m, hm, hs, htop⟩ := exists_top ⟨y, hy, hys⟩
    exact absurd (List.find?_eq_none.mp hnone m hm) (by simpa [hs] using htop)
  · intro hno
    refine List.find?_eq_none.mpr fun y hy => ?_
    simp [hno y hy]

/-- The best order is not beaten, and the earlier orders of its side are worse. -/
theorem best_eq_some_iff : best book isBid = some m ↔
    (m.isBid = isBid ∧ ∀ y ∈ book, y.isBid = isBid → ¬ Better isBid y.price m.price) ∧
      ∃ front back, book = front ++ m :: back ∧
        ∀ y ∈ front, y.isBid = isBid → Better isBid m.price y.price := by
  rw [best, List.find?_eq_some_iff_append, decide_eq_true_eq]
  refine and_congr_right fun htop => exists_congr fun front => exists_congr fun back =>
    and_congr_right fun hsplit => forall_congr' fun y => forall_congr' fun hy => ?_
  obtain ⟨hs, htop⟩ := htop
  have hmem : y ∈ book := hsplit ▸ List.mem_append_left _ hy
  have hm : m ∈ book := hsplit ▸ List.mem_append_right _ List.mem_cons_self
  rw [Bool.not_eq_true', decide_eq_false_iff_not, not_and, not_forall]
  refine forall_congr' fun hys => ⟨?_, fun hb => ⟨m, ?_⟩⟩
  · rintro ⟨z, hz⟩
    rw [Classical.not_imp, Classical.not_imp, not_not] at hz
    by_contra hb
    exact htop z hz.1 hz.2.1 (Classical.not_not.mp fun hno => not_better_trans hno hb hz.2.2)
  · rw [Classical.not_imp, Classical.not_imp, not_not]
    exact ⟨hm, hs, hb⟩

private theorem mem_delete {y : Entry} : y ∈ delete book x ↔ y ∈ book ∧ y.id ≠ x := by
  simp [delete]

private theorem delete_append (front back : Book) :
    delete (front ++ back) x = delete front x ++ delete back x := List.filter_append ..

private theorem delete_concat (hm : m.id ≠ x) : delete (book ++ [m]) x = delete book x ++ [m] := by
  rw [delete_append, delete, delete, List.filter_cons_of_pos (by simpa using hm), List.filter_nil]

private theorem delete_comm : delete (delete book x) id = delete (delete book id) x := by
  rw [delete, delete, delete, delete, List.filter_filter, List.filter_filter]
  exact List.filter_congr fun y _ => Bool.and_comm ..

private theorem delete_of_fresh (h : ∀ y ∈ book, y.id ≠ x) : delete book x = book :=
  List.filter_eq_self.mpr fun y hy => by simpa using h y hy

private theorem delete_reduce (r : Int) :
    delete (reduce book id r) x = reduce (delete book x) id r := by
  rw [delete, reduce, List.filter_map, reduce, delete]
  refine congrArg _ (List.filter_congr fun y _ => ?_)
  rw [Function.comp_apply]
  split <;> rfl

/-- Without an order that is not the best one, the best order is the same. -/
theorem best_delete (h : best book isBid = some m) (hm : m.id ≠ x) :
    best (delete book x) isBid = some m := by
  rw [best_eq_some_iff] at h ⊢
  obtain ⟨⟨hs, htop⟩, front, back, rfl, hfront⟩ := h
  refine ⟨⟨hs, fun y hy => htop y (mem_delete.mp hy).1⟩, delete front x, delete back x, ?_,
    fun y hy => hfront y (mem_delete.mp hy).1⟩
  rw [delete_append, delete, delete, delete, List.filter_cons_of_pos (by simpa using hm)]

/-- Without the best order, what is best is not better. -/
theorem not_better_best_delete {m' : Entry} (h : best book isBid = some m)
    (h' : best (delete book x) isBid = some m') : ¬ Better isBid m'.price m.price :=
  (best_eq_some_iff.mp h).1.2 m' (mem_delete.mp (mem_of_best h')).1
    (best_eq_some_iff.mp h').1.1

/-- A sweep that does not trade with an order does not notice it. -/
theorem sweep_delete (h : ∀ fill ∈ (sweep taker book).1, fill.makerId ≠ x) :
    sweep taker (delete book x) =
      ((sweep taker book).1, (sweep taker book).2.1, delete (sweep taker book).2.2 x) := by
  induction hlen : book.length using Nat.strong_induction_on generalizing taker book with
  | _ len ih =>
    cases hbest : best book (!taker.isBid) with
    | none =>
      have hnone : best (delete book x) (!taker.isBid) = none :=
        best_eq_none_iff.mpr fun y hy => best_eq_none_iff.mp hbest y (mem_delete.mp hy).1
      have hstop : ∀ m, best book (!taker.isBid) = some m →
          Better taker.isBid m.price taker.price := fun m hm => by cases hbest.symm.trans hm
      have hstop' : ∀ m, best (delete book x) (!taker.isBid) = some m →
          Better taker.isBid m.price taker.price := fun m hm => by cases hnone.symm.trans hm
      rw [sweep_stop (Or.inr hstop), sweep_stop (Or.inr hstop')]
    | some m =>
      by_cases hstop : taker.remaining ≤ 0 ∨ Better taker.isBid m.price taker.price
      · -- what is best without the order is out of reach as well
        have hstop' : taker.remaining ≤ 0 ∨ ∀ m', best (delete book x) (!taker.isBid) = some m' →
            Better taker.isBid m'.price taker.price := by
          refine hstop.imp_right fun hb m' hm' => ?_
          have hnb := not_better_best_delete hbest hm'
          rw [better_not] at hnb
          by_contra hno
          exact not_better_trans hnb hno hb
        have hstop'' : taker.remaining ≤ 0 ∨ ∀ m', best book (!taker.isBid) = some m' →
            Better taker.isBid m'.price taker.price :=
          hstop.imp_right fun hb m' hm' => Option.some.inj (hbest.symm.trans hm') ▸ hb
        rw [sweep_stop hstop'', sweep_stop hstop']
      · obtain ⟨hpos, hcompat⟩ := not_or.mp hstop
        rw [not_le] at hpos
        by_cases hall : m.remaining ≤ taker.remaining
        · rw [sweep_exhaust hbest hpos hcompat hall] at h ⊢
          have hm : m.id ≠ x := h _ List.mem_cons_self
          rw [sweep_exhaust (best_delete hbest hm) hpos hcompat hall, delete_comm]
          have hrest := ih _ (hlen ▸ length_delete_lt (mem_of_best hbest))
            (fun fill hfill => h fill (List.mem_cons_of_mem _ hfill)) rfl
          dsimp only
          rw [hrest]
        · rw [sweep_fill hbest hpos hcompat (not_le.mp hall)] at h ⊢
          have hm : m.id ≠ x := h _ List.mem_cons_self
          rw [sweep_fill (best_delete hbest hm) hpos hcompat (not_le.mp hall), delete_reduce]

/-- The taker keeps its id, side and price. -/
theorem sweep_taker : (sweep taker book).2.1.id = taker.id := by
  induction hlen : book.length using Nat.strong_induction_on generalizing taker book with
  | _ len ih =>
    rw [sweep]
    split
    · rfl
    · rename_i m hbest
      split
      · rfl
      · dsimp only
        split
        · exact ih _ (hlen ▸ length_delete_lt (mem_of_best hbest)) rfl
        · rfl

/-- All fills of a sweep name the taker, and without a fill nothing changes. -/
theorem sweep_fills (taker : Entry) (book : Book) :
    (∀ fill ∈ (sweep taker book).1, fill.takerId = taker.id) ∧
    ((sweep taker book).1 = [] → sweep taker book = ([], taker, book)) := by
  induction hlen : book.length using Nat.strong_induction_on generalizing taker book with
  | _ len ih =>
    rw [sweep]
    split
    · simp
    · rename_i m hbest
      split
      · simp
      · dsimp only
        split
        · refine ⟨fun fill hfill => ?_, fun hnil => absurd hnil (List.cons_ne_nil _ _)⟩
          rcases List.mem_cons.mp hfill with rfl | hfill
          · rfl
          · have hrest := ih _ (hlen ▸ length_delete_lt (mem_of_best hbest))
              { taker with remaining := taker.remaining - min taker.remaining m.remaining } _ rfl
            exact hrest.1 fill hfill
        · simp

/-- An accepted order that no fill names goes to the end of the book. -/
theorem newLimit_unfilled {price quantity : Int} (hq : 0 < quantity) (hp : 0 < price)
    (hfresh : ∀ y ∈ book, y.id ≠ id) (hroom : book.length < maxOrders)
    (h : ∀ fill ∈ (newLimit book id isBid price quantity).1, fill.takerId ≠ id) :
    newLimit book id isBid price quantity = ([], book ++ [⟨id, isBid, price, quantity⟩]) := by
  rw [newLimit, if_pos ⟨hq, hp, hfresh, hroom⟩] at h ⊢
  obtain ⟨htaker, hstill⟩ := sweep_fills ⟨id, isBid, price, quantity⟩ book
  have hnil : (sweep ⟨id, isBid, price, quantity⟩ book).1 = [] :=
    List.eq_nil_iff_forall_not_mem.mpr fun fill hfill => h fill hfill (htaker fill hfill)
  dsimp only
  rw [hstill hnil]
  exact congrArg (Prod.mk []) (if_pos hq)

/-- The order `x` is not noticed by a new order. -/
theorem newLimit_delete {price quantity : Int} (hid : id ≠ x) (hroom : book.length < maxOrders)
    (h : ∀ fill ∈ (newLimit book id isBid price quantity).1, fill.makerId ≠ x) :
    newLimit (delete book x) id isBid price quantity =
      ((newLimit book id isBid price quantity).1,
        delete (newLimit book id isBid price quantity).2 x) := by
  have hfresh : (∀ y ∈ delete book x, y.id ≠ id) ↔ ∀ y ∈ book, y.id ≠ id := by
    refine ⟨fun hall y hy heq => ?_, fun hall y hy => hall y (mem_delete.mp hy).1⟩
    exact hall y (mem_delete.mpr ⟨hy, heq ▸ hid⟩) heq
  have hroom' : (delete book x).length < maxOrders := (List.length_filter_le ..).trans_lt hroom
  simp only [newLimit, hfresh, hroom, hroom', and_true] at h ⊢
  by_cases hok : 0 < quantity ∧ 0 < price ∧ ∀ y ∈ book, y.id ≠ id
  · simp only [if_pos hok] at h ⊢
    rw [sweep_delete h]
    split_ifs
    · rw [delete_concat]
      rw [sweep_taker]
      exact hid
    · rfl
  · simp only [if_neg hok]

private theorem modify_delete {price quantity : Int} (hid : id ≠ x) :
    modify (delete book x) id price quantity = delete (modify book id price quantity) x := by
  have hfind : (delete book x).find? (fun y => decide (y.id = id)) =
      book.find? (fun y => decide (y.id = id)) := by
    rw [delete, List.find?_filter]
    refine List.find?_congr fun y _ => ?_
    by_cases hy : y.id = id
    · simp [hy, hid]
    · simp [hy]
  rw [modify, modify, hfind]
  cases hfound : book.find? fun y => decide (y.id = id) with
  | none => rfl
  | some y =>
    dsimp only
    split_ifs
    · rw [delete_reduce]
    · rw [delete_concat, delete_comm]
      have hsome := List.find?_some hfound
      exact of_decide_eq_true hsome ▸ hid
    · rfl

/-- The order `x` is not noticed by a call about another order that does not trade with it. -/
theorem step_delete {call : Call} (hid : call.id ≠ x)
    (hroom : ∀ n, call = .newOrder n → book.length < maxOrders)
    (h : ∀ fill ∈ (step book call).1, fill.makerId ≠ x) :
    step (delete book x) call = ((step book call).1, delete (step book call).2 x) := by
  cases call with
  | newOrder n => exact newLimit_delete hid (hroom n rfl) h
  | cancel id => exact congrArg (Prod.mk []) delete_comm
  | modify id price quantity => exact congrArg (Prod.mk []) (modify_delete hid)

/-- If the abstract book accepts the order, it is a bid or an ask. -/
def TakesNamed (book : Book) : Call → Prop
  | .newOrder n => 0 < n.quantity ∧ 0 < n.price ∧ (∀ x ∈ book, x.id ≠ n.id) ∧
      book.length < maxOrders → n.side.Named
  | .cancel _ => True
  | .modify _ _ _ => True

/-- The orders that the abstract run accepts are bids and asks. -/
def RunNamed (book : Book) : List Call → Prop
  | [] => True
  | call :: calls => TakesNamed book call ∧ RunNamed (step book call).2 calls

/-- A call is no less particular about sides without an order it does not name. -/
theorem TakesNamed.delete {book : Book} {call : Call} {x : OrderId} (h : TakesNamed book call)
    (hid : call.id ≠ x) (hroom : ∀ n, call = .newOrder n → book.length < maxOrders) :
    TakesNamed (delete book x) call := by
  cases call with
  | newOrder n =>
    rintro ⟨hq, hp, hfresh, -⟩
    refine h ⟨hq, hp, fun y hy => ?_, hroom n rfl⟩
    by_cases hyx : y.id = x
    · rw [hyx]
      exact hid.symm
    · exact hfresh y (List.mem_filter.mpr ⟨hy, by simpa using hyx⟩)
  | cancel id => trivial
  | modify id price quantity => trivial

private theorem runNamed_append {book : Book} {calls calls' : List Call} :
    RunNamed book (calls ++ calls') ↔
      RunNamed book calls ∧ RunNamed (run book calls).2 calls' := by
  induction calls generalizing book with
  | nil => simp only [List.nil_append, RunNamed, PriceTime.run, true_and]
  | cons call calls ih =>
    rw [List.cons_append, RunNamed, ih, RunNamed, run, and_assoc]

end PriceTime

/-- The same queues of ids and remaining quantities, depth counters, best prices and number of
orders. -/
structure OrderBook.SameAs (b b' : OrderBook) : Prop where
  queues : ∀ s t, (b.queueOf s t).map (fun o => (o.id, o.remaining)) =
    (b'.queueOf s t).map fun o => (o.id, o.remaining)
  levels : ∀ s t, b.levelOf s t = b'.levelOf s t
  best : ∀ s, b.best s = b'.best s
  orders : b.totalOrders = b'.totalOrders

/-- A new order finds a free slot. -/
def HasRoom (b : OrderBook) : Call → Prop
  | .newOrder _ => 0 < b.pool.available
  | _ => True

instance (b : OrderBook) : DecidablePred (HasRoom b)
  | .newOrder _ => inferInstanceAs (Decidable (0 < b.pool.available))
  | .cancel _ => inferInstanceAs (Decidable True)
  | .modify .. => inferInstanceAs (Decidable True)

/-- The message of a fill. -/
def PriceTime.Fill.msg (fees : FeeSchedule) (fill : PriceTime.Fill) : FillMsg where
  makerId := fill.makerId
  takerId := fill.takerId
  price := fill.price
  quantity := fill.quantity
  makerFee := toInt64 (-fees.makerRebate fill.price fill.quantity)
  takerFee := fees.takerFee fill.price fill.quantity

private theorem tradeMsgs_eq_msg (fees : FeeSchedule) (id : OrderId) (trades : List (Order × Int)) :
    tradeMsgs fees id trades = (trades.map (tradeFill id)).map (·.msg fees) := by
  rw [tradeMsgs, List.map_map]
  rfl

/-- The engine shows a book of limit orders with the given entries. -/
def MatchingEngine.HoldsEntries (e : MatchingEngine) (book : PriceTime.Book) : Prop :=
  ∃ v, e.book.Shows v ∧ v.LimitBook ∧ v.orders.map Order.entry = book

namespace MatchingEngine.HoldsEntries

variable {e e' : MatchingEngine} {book : PriceTime.Book} {ord : HashOrder} {call : Call}

private theorem init (fees : FeeSchedule) : (MatchingEngine.init fees).HoldsEntries [] :=
  ⟨_, OrderBook.shows_init, BookView.limitBook_empty, rfl⟩

/-- A call moves the entries as the abstract book and emits the messages of its fills. -/
theorem step (h : e.HoldsEntries book) (hlimits : call.Limits) (hnamed : AdmitsNamed e.book call)
    (ord : HashOrder) :
    ∃ e', e.perform ord call = some e' ∧ e'.HoldsEntries (PriceTime.step book call).2 ∧
      e'.fees = e.fees ∧
      e'.fills = e.fills ++ (PriceTime.step book call).1.map (·.msg e.fees) := by
  obtain ⟨v, hshows, hv, rfl⟩ := h
  obtain ⟨e', trades, v', hperform, hshows', heffect, hfees, hfills⟩ := perform_spec hshows ord call
  have hfits := hshows.enters_of_rests hv.sides hlimits.rests hnamed
  rw [heffect.step hlimits hfits hv, ← tradeMsgs_eq_msg]
  exact ⟨e', hperform, ⟨v', hshows', heffect.limitBook hlimits hfits hv, rfl⟩, hfees, hfills⟩

/-- The engine accepts what the abstract book accepts. -/
theorem admitsNamed_iff (h : e.HoldsEntries book) (hlimits : call.Limits) :
    AdmitsNamed e.book call ↔ PriceTime.TakesNamed book call := by
  obtain ⟨v, hshows, -, rfl⟩ := h
  cases call with
  | newOrder n =>
    rw [AdmitsNamed, PriceTime.TakesNamed, hshows.admits_iff, BookView.accepts_iff hlimits]
  | cancel id => exact Iff.rfl
  | modify id price qty => exact Iff.rfl

private theorem runMeets_iff (h : e.HoldsEntries book) {calls : List (HashOrder × Call)}
    (hcalls : ∀ c ∈ calls, c.2.Limits) :
    e.RunMeets AdmitsNamed calls ↔ PriceTime.RunNamed book (calls.map (·.2)) := by
  induction calls generalizing e book with
  | nil => exact Iff.rfl
  | cons c calls ih =>
    obtain ⟨ord, call⟩ := c
    have hlimits : call.Limits := hcalls _ List.mem_cons_self
    rw [MatchingEngine.RunMeets, List.map_cons, PriceTime.RunNamed, h.admitsNamed_iff hlimits]
    refine and_congr_right fun hnamed => ?_
    obtain ⟨e₁, hperform, h₁, -⟩ := h.step hlimits ((h.admitsNamed_iff hlimits).mpr hnamed) ord
    have hrest := ih h₁ fun c hc => hcalls c (List.mem_cons_of_mem _ hc)
    rw [← hrest]
    refine ⟨fun hall => hall e₁ hperform, fun hmeets e' he' => ?_⟩
    obtain rfl := Option.some.inj (hperform.symm.trans he')
    exact hmeets

/-- Books with the same entries are the same. -/
theorem sameAs (h : e.HoldsEntries book) (h' : e'.HoldsEntries book) : e.book.SameAs e'.book := by
  obtain ⟨v, hshows, hv, rfl⟩ := h
  obtain ⟨v', hshows', hv', heq⟩ := h'
  have hlevel : ∀ s t, (v.level s t).map Order.entry = (v'.level s t).map Order.entry :=
    fun s t => by rw [← BookView.level_entries, ← heq, BookView.level_entries]
  have hqueue := fun s t => congrArg (List.map fun x : PriceTime.Entry => (x.id, x.remaining))
    (hlevel s t)
  simp only [List.map_map] at hqueue
  refine ⟨fun s t => ?_, fun s t => ?_, fun s => ?_, ?_⟩
  · rw [hshows.queueOf, hshows'.queueOf]
    exact hqueue s t
  · have hnil : v.level s t = [] ↔ v'.level s t = [] := by
      rw [← List.map_eq_nil_iff, hlevel, List.map_eq_nil_iff]
    have htotal : v.total s t = v'.total s t := by
      rw [hv.balanced s t, hv'.balanced s t]
      have hsum := congrArg (fun os => toInt32 (os.map PriceTime.Entry.remaining).sum) (hlevel s t)
      simp only [List.map_map] at hsum
      exact hsum
    have hlength : (v.level s t).length = (v'.level s t).length := by
      rw [← List.length_map, hlevel, List.length_map]
    rw [hshows.levelOf, hshows'.levelOf, htotal, hlength]
    exact if_congr hnil rfl rfl
  · rw [(hshows.tracks hv).best s, (hshows'.tracks hv').best s, heq]
  · rw [hshows.totalOrders, hshows'.totalOrders, ← List.length_map, ← heq, List.length_map]

/-- A run moves the entries as the abstract run and emits the messages of its fills. -/
theorem run (h : e.HoldsEntries book) (calls : List (HashOrder × Call))
    (hcalls : ∀ c ∈ calls, c.2.Limits) (hnamed : e.RunMeets AdmitsNamed calls) :
    ∃ e', e.run calls = some e' ∧
      e'.HoldsEntries (PriceTime.run book (calls.map (·.2))).2 ∧ e'.fees = e.fees ∧
      e'.fills = e.fills ++ (PriceTime.run book (calls.map (·.2))).1.map (·.msg e.fees) := by
  induction calls generalizing e book with
  | nil => exact ⟨e, rfl, h, rfl, (List.append_nil _).symm⟩
  | cons c calls ih =>
    obtain ⟨ord, call⟩ := c
    obtain ⟨e₁, hperform, h₁, hfees, hfills⟩ := h.step (hcalls _ List.mem_cons_self) hnamed.1 ord
    obtain ⟨e', hrun, h', hfees', hfills'⟩ :=
      ih h₁ (fun c hc => hcalls c (List.mem_cons_of_mem _ hc)) (hnamed.2 e₁ hperform)
    refine ⟨e', by rw [MatchingEngine.run, hperform]; exact hrun, h', hfees'.trans hfees, ?_⟩
    rw [hfills', hfills, hfees, List.append_assoc, ← List.map_append]
    rfl

/-- A free slot is room in the abstract book. -/
theorem length_lt (h : e.HoldsEntries book) {n : NewOrder} (hroom : HasRoom e.book (.newOrder n)) :
    book.length < maxOrders := by
  obtain ⟨v, hshows, -, rfl⟩ := h
  rw [List.length_map, ← hshows.allocatedCount]
  exact Nat.sub_pos_iff_lt.mp hroom

/-- A call of which no fill names `x`, with room in the book that holds `x`. -/
theorem step_delete (h : e.HoldsEntries book) {x : OrderId}
    (hid : call.id ≠ x) (hroom : HasRoom e.book call)
    (hfills : ∀ fill ∈ (PriceTime.step book call).1, fill.makerId ≠ x) :
    PriceTime.step (PriceTime.delete book x) call =
      ((PriceTime.step book call).1, PriceTime.delete (PriceTime.step book call).2 x) := by
  refine PriceTime.step_delete hid (fun n hn => ?_) hfills
  subst hn
  exact h.length_lt hroom

/-- While no fill names `x` the run does not notice it. -/
theorem run_delete (h : e.HoldsEntries book) {x : OrderId} {calls : List (HashOrder × Call)}
    (hcalls : ∀ c ∈ calls, c.2.Limits ∧ c.2.id ≠ x) (hnamed : e.RunMeets AdmitsNamed calls)
    (hroom : e.RunMeets HasRoom calls)
    (hfills : ∀ fill ∈ (PriceTime.run book (calls.map (·.2))).1, fill.makerId ≠ x) :
    PriceTime.run (PriceTime.delete book x) (calls.map (·.2)) =
      ((PriceTime.run book (calls.map (·.2))).1,
        PriceTime.delete (PriceTime.run book (calls.map (·.2))).2 x) ∧
      PriceTime.RunNamed (PriceTime.delete book x) (calls.map (·.2)) := by
  induction calls generalizing e book with
  | nil => exact ⟨rfl, trivial⟩
  | cons c calls ih =>
    obtain ⟨ord, call⟩ := c
    obtain ⟨hlimits, hid⟩ := hcalls _ List.mem_cons_self
    obtain ⟨e₁, hperform, h₁, -⟩ := h.step hlimits hnamed.1 ord
    rw [List.map_cons, PriceTime.run] at hfills ⊢
    have hstep := h.step_delete hid hroom.1 fun fill hfill =>
      hfills fill (List.mem_append_left _ hfill)
    obtain ⟨hrest, hlater⟩ := ih h₁ (fun c hc => hcalls c (List.mem_cons_of_mem _ hc))
      (hnamed.2 e₁ hperform) (hroom.2 e₁ hperform)
      fun fill hfill => hfills fill (List.mem_append_right _ hfill)
    have htakes := ((h.admitsNamed_iff hlimits).mp hnamed.1).delete hid fun n hn => by
      subst hn
      exact h.length_lt hroom.1
    refine ⟨?_, htakes, by rwa [hstep]⟩
    rw [PriceTime.run]
    dsimp only
    rw [hstep, hrest]

end MatchingEngine.HoldsEntries

private theorem PriceTime.run_append (book : PriceTime.Book) (calls calls' : List Call) :
    PriceTime.run book (calls ++ calls') =
      ((PriceTime.run book calls).1 ++ (PriceTime.run (PriceTime.run book calls).2 calls').1,
        (PriceTime.run (PriceTime.run book calls).2 calls').2) := by
  induction calls generalizing book with
  | nil => rfl
  | cons call calls ih =>
    rw [List.cons_append, PriceTime.run, ih, PriceTime.run, List.append_assoc]

/-- Run `A`, a limit order `x` that is accepted, `B`, the cancel of `x` and `C`, where `B` does
not name `x` and all orders accepted are bids and asks: if no fill names `x` while it is in the
book and the book keeps room, the fills and the book are those of `A`, `B` and `C` alone, for all
iteration orders. -/
theorem cancelled_order_leaves_no_trace (fees : FeeSchedule) (A B C : List (HashOrder × Call))
    (hcalls : ∀ c ∈ A ++ B ++ C, c.2.Limits) {n : NewOrder} (hn : n.type = .limit)
    (hB : ∀ c ∈ B, c.2.id ≠ n.id) {ord ord' : HashOrder} {e₀ e₁ e₂ e : MatchingEngine}
    (hnamed : (MatchingEngine.init fees).RunMeets AdmitsNamed
      (A ++ (ord, .newOrder n) :: B ++ (ord', .cancel n.id) :: C))
    (hA : (MatchingEngine.init fees).run A = some e₀) (hadmits : e₀.book.Admits n)
    (hx : e₀.perform ord (.newOrder n) = some e₁) (hrunB : e₁.run B = some e₂)
    (hroom : e₁.RunMeets HasRoom B)
    (hunfilled : ∃ fills, e₂.fills = e₀.fills ++ fills ∧
      ∀ fill ∈ fills, fill.makerId ≠ n.id ∧ fill.takerId ≠ n.id)
    (hC : e₂.run ((ord', .cancel n.id) :: C) = some e) {calls : List (HashOrder × Call)}
    (hwithout : calls.map (·.2) = (A ++ B ++ C).map (·.2)) :
    ∃ e', (MatchingEngine.init fees).run calls = some e' ∧ e'.fills = e.fills ∧
      e'.book.SameAs e.book := by
  simp only [List.mem_append] at hcalls
  have hcancel : ∀ c ∈ (ord', Call.cancel n.id) :: C, c.2.Limits := fun c hc =>
    (List.mem_cons.mp hc).elim (fun hc => hc ▸ trivial) fun hc => hcalls c (Or.inr hc)
  -- the sides along the run with the order
  rw [List.append_assoc] at hnamed
  obtain ⟨hnamedA, hafterA⟩ := hnamed.split
  obtain ⟨hnamedx, hafterx⟩ := hafterA e₀ hA
  obtain ⟨hnamedB, hafterB⟩ := (hafterx e₁ hx).split
  have hnamedC := hafterB e₂ hrunB
  have h := MatchingEngine.HoldsEntries.init fees
  obtain ⟨e₀', hA', h₀, hfees₀, hfills₀⟩ := h.run A (fun c hc => hcalls c (Or.inl (Or.inl hc))) hnamedA
  obtain rfl := Option.some.inj (hA.symm.trans hA')
  set bookA := PriceTime.run [] (A.map (·.2)) with hbookA
  have hlimitx : (Call.newOrder n).Limits := hn
  obtain ⟨e₁', hx', h₁, hfees₁, hfills₁⟩ := h₀.step hlimitx hnamedx ord
  obtain rfl := Option.some.inj (hx.symm.trans hx')
  obtain ⟨e₂', hrunB', h₂, hfees₂, hfills₂⟩ :=
    h₁.run B (fun c hc => hcalls c (Or.inl (Or.inr hc))) hnamedB
  obtain rfl := Option.some.inj (hrunB.symm.trans hrunB')
  obtain ⟨e', hC', h₃, hfees₃, hfills₃⟩ := h₂.run ((ord', .cancel n.id) :: C) hcancel hnamedC
  obtain rfl := Option.some.inj (hC.symm.trans hC')
  -- no abstract fill names the order either
  have hunnamed : ∀ fill ∈ (PriceTime.step bookA.2 (.newOrder n)).1 ++
      (PriceTime.run (PriceTime.step bookA.2 (.newOrder n)).2 (B.map (·.2))).1,
      fill.makerId ≠ n.id ∧ fill.takerId ≠ n.id := by
    obtain ⟨fills, hfills, hno⟩ := hunfilled
    rw [hfills₂, hfills₁, hfees₁, List.append_assoc, ← List.map_append] at hfills
    obtain rfl := List.append_cancel_left hfills
    exact fun fill hfill => hno _ (List.mem_map_of_mem hfill)
  -- so it goes to the end of the book
  have hentry : PriceTime.step bookA.2 (.newOrder n) =
      ([], bookA.2 ++ [⟨n.id, n.side.isBid, n.price, n.quantity⟩]) := by
    obtain ⟨v, hshows, -, hv⟩ := h₀
    obtain ⟨hq, hp, hfresh, hcount⟩ := (BookView.accepts_iff hn).mp (hshows.admits_iff.mp hadmits)
    rw [hv] at hfresh hcount
    exact PriceTime.newLimit_unfilled hq hp hfresh hcount fun fill hfill =>
      (hunnamed fill (List.mem_append_left _ hfill)).2
  have hfresh : PriceTime.delete (bookA.2 ++ [⟨n.id, n.side.isBid, n.price, n.quantity⟩]) n.id =
      bookA.2 := by
    obtain ⟨v, hshows, -, hv⟩ := h₀
    obtain ⟨-, -, hfresh, -⟩ := (BookView.accepts_iff hn).mp (hshows.admits_iff.mp hadmits)
    rw [hv] at hfresh
    rw [PriceTime.delete_append, PriceTime.delete_of_fresh hfresh]
    simp [PriceTime.delete]
  -- and the calls of `B` do not notice it
  obtain ⟨hrunB₀, hsidesB⟩ := h₁.run_delete
    (fun c hc => ⟨hcalls c (Or.inl (Or.inr hc)), hB c hc⟩) hnamedB hroom
    fun fill hfill => (hunnamed fill (List.mem_append_right _ hfill)).1
  obtain ⟨-, hsidesC⟩ := (h₂.runMeets_iff hcancel).mp hnamedC
  rw [hentry] at hfills₁ hfills₂ h₃ hfills₃ hrunB₀ hsidesB hsidesC
  dsimp only at hfills₁ hfills₂ h₃ hfills₃ hrunB₀ hsidesB hsidesC
  rw [hfresh] at hrunB₀ hsidesB
  rw [List.map_cons, PriceTime.run] at h₃ hfills₃
  -- the run without it accepts the same orders
  have hlimits : ∀ c ∈ calls, c.2.Limits := fun c hc => by
    obtain ⟨c', hc', heq⟩ := List.mem_map.mp (hwithout ▸ List.mem_map_of_mem hc)
    rw [← heq]
    exact hcalls c' (by simpa only [List.mem_append] using hc')
  have hsides : PriceTime.RunNamed [] (calls.map (·.2)) := by
    rw [hwithout, List.map_append, List.map_append, PriceTime.runNamed_append,
      PriceTime.runNamed_append, PriceTime.run_append, ← hbookA, hrunB₀]
    exact ⟨⟨(h.runMeets_iff fun c hc => hcalls c (Or.inl (Or.inl hc))).mp hnamedA, hsidesB⟩, hsidesC⟩
  obtain ⟨e', hrun, h', -, hfills'⟩ := h.run calls hlimits ((h.runMeets_iff hlimits).mpr hsides)
  rw [hwithout, List.map_append, List.map_append, PriceTime.run_append, PriceTime.run_append,
    ← hbookA, hrunB₀] at h' hfills'
  refine ⟨e', hrun, ?_, h'.sameAs h₃⟩
  rw [hfills', hfills₃, hfills₂, hfills₁, hfills₀, hfees₂, hfees₁, hfees₀]
  simp [PriceTime.step]

/-- A bid that is best for a while; the bid behind it trades after the cancel. -/
theorem cancelled_order_leaves_no_trace_best_bid :
    ∃ e e', (MatchingEngine.init {}).run
        [(HashOrder.recent, .newOrder ⟨1, .bid, .limit, 100, 4, 0, 0⟩),
          (HashOrder.recent, .newOrder ⟨2, .bid, .limit, 102, 5, 0, 0⟩),
          (HashOrder.recent, .newOrder ⟨3, .ask, .limit, 103, 6, 0, 0⟩),
          (HashOrder.recent, .cancel 2),
          (HashOrder.recent, .newOrder ⟨4, .ask, .limit, 100, 3, 0, 0⟩)] = some e ∧
      (MatchingEngine.init {}).run
        [(HashOrder.recent, .newOrder ⟨1, .bid, .limit, 100, 4, 0, 0⟩),
          (HashOrder.recent, .newOrder ⟨3, .ask, .limit, 103, 6, 0, 0⟩),
          (HashOrder.recent, .newOrder ⟨4, .ask, .limit, 100, 3, 0, 0⟩)] = some e' ∧
      e'.fills = e.fills ∧ e'.fills.length = 1 ∧ e'.book.SameAs e.book := by
  obtain ⟨e', hrun, hfills, hsame⟩ := @cancelled_order_leaves_no_trace {}
    [(HashOrder.recent, .newOrder ⟨1, .bid, .limit, 100, 4, 0, 0⟩)]
    [(HashOrder.recent, .newOrder ⟨3, .ask, .limit, 103, 6, 0, 0⟩)]
    [(HashOrder.recent, .newOrder ⟨4, .ask, .limit, 100, 3, 0, 0⟩)] (by decide)
    ⟨2, .bid, .limit, 102, 5, 0, 0⟩ rfl (by decide) HashOrder.recent HashOrder.recent
    _ _ _ _ ⟨fun _ => Or.inl rfl, fun _ _ => ⟨fun _ => Or.inl rfl, fun _ _ =>
      ⟨fun _ => Or.inr rfl, fun _ _ => ⟨trivial, fun _ _ =>
        ⟨fun _ => Or.inr rfl, fun _ _ => trivial⟩⟩⟩⟩⟩
    rfl (by decide) rfl rfl ⟨by decide, fun _ _ => trivial⟩ ⟨[], rfl, by decide⟩ rfl _ rfl
  exact ⟨_, e', rfl, hrun, hfills, by rw [hfills]; rfl, hsame⟩

/-- An ask at 110 and an order of side 7 at 100, which is cancelled: the best ask stays 100, so a bid
at 105 rests as the best one and the bid at 110 behind it finds nobody to trade with. Without the
order of side 7 it buys from the ask. -/
theorem cancelled_unnamed_order_leaves_trace :
    ∃ e e', (MatchingEngine.init {}).run
        [(HashOrder.recent, .newOrder ⟨2, .ask, .limit, 110, 5, 0, 0⟩),
          (HashOrder.recent, .newOrder ⟨1, .raw 7, .limit, 100, 5, 0, 0⟩),
          (HashOrder.recent, .cancel 1),
          (HashOrder.recent, .newOrder ⟨3, .bid, .limit, 105, 5, 0, 0⟩),
          (HashOrder.recent, .newOrder ⟨4, .bid, .limit, 110, 5, 0, 0⟩)] = some e ∧
      (MatchingEngine.init {}).run
        [(HashOrder.recent, .newOrder ⟨2, .ask, .limit, 110, 5, 0, 0⟩),
          (HashOrder.recent, .newOrder ⟨3, .bid, .limit, 105, 5, 0, 0⟩),
          (HashOrder.recent, .newOrder ⟨4, .bid, .limit, 110, 5, 0, 0⟩)] = some e' ∧
      e.fills = [] ∧ e.book.bestBid = 110 ∧ e.book.bestAsk = 100 ∧
      e'.fills.map FillMsg.fill = [⟨2, 4, 110, 5⟩] ∧ ¬ e'.book.SameAs e.book :=
  ⟨_, _, rfl, rfl, rfl, rfl, rfl, rfl, fun hsame => absurd (hsame.best true) (by decide)⟩

end LiquidityArena

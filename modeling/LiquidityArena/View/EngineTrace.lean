import LiquidityArena.Engine.MatchingEngine
import LiquidityArena.View.BookOps

/-!
# The matching loop as a sequence of trades

One pass of the loop either stops or trades with the front order of the cached
opposite best price. `Matched` chains the trades of a whole loop up to its exit.
Every engine call is then described once, by what it does to the view; the
invariants of the engine are derived from these descriptions and never unfold a
call again.
-/

namespace LiquidityArena

open MatchingEngine OrderBook

namespace BookView

/-- One of the loop's exit conditions holds for the incoming order. -/
def Stops (v : BookView) (i : Order) : Prop :=
  i.remaining ≤ 0 ∨ v.best (!i.side.isBid) = invalidPrice ∨
    Incompatible i (v.best (!i.side.isBid)) ∨
    v.level (!i.side.isBid) (v.best (!i.side.isBid)) = []

/-- The incoming order `i` trades `q` with the maker `m`, who leaves when filled. -/
structure Trade (v : BookView) (i m : Order) (q : Int) (v' : BookView) : Prop where
  taker : i ∈ v.orders
  maker : (v.level (!i.side.isBid) (v.best (!i.side.isBid))).head? = some m
  unfilled : 0 < i.remaining
  valid : v.best (!i.side.isBid) ≠ invalidPrice
  compatible : ¬ Incompatible i (v.best (!i.side.isBid))
  qty : q = min i.remaining (makerAvailable m)
  after : if (m.fill q).isFilled then (v.fill m i q).Dropped (m.fill q) v' else v' = v.fill m i q

/-- The trades of a loop that starts with the incoming order `i` and leaves it as `i'`. -/
inductive Matched : BookView → Order → List (Order × Int) → BookView → Order → Prop
  | stop {v : BookView} {i : Order} : v.Stops i → Matched v i [] v i
  | step {v v' v'' : BookView} {i i' m : Order} {q : Int} {trades : List (Order × Int)} :
      v.Trade i m q v' → Matched v' (i.fill q) trades v'' i' →
      Matched v i ((m, q) :: trades) v'' i'

end BookView

namespace OrderBook.Rep

variable {b : OrderBook} {e : MatchingEngine} {ps : List Ptr} {p m : Ptr}

/-- A fill between two listed orders. -/
theorem executeFill (h : e.book.Rep ps) (hm : m ∈ ps) (hp : p ∈ ps) (hne : m ≠ p) (q : Int) :
    ∃ book, e.executeFill m p q =
        { e with book }.record (fillMsg e.fees (e.book.pool.get m) (e.book.pool.get p).id q) ∧
      book.Rep ps ∧ book.view ps =
        (e.book.view ps).fill (e.book.pool.get m).unlink (e.book.pool.get p).unlink q ∧
      ∀ x, (book.pool.get x) =
        if x = m ∨ x = p then (e.book.pool.get x).fill q else e.book.pool.get x := by
  set mo := e.book.pool.get m with hmo
  set po := e.book.pool.get p with hpo
  set book := ({ e.book with
    pool := (e.book.pool.modify m (·.fill q)).modify p (·.fill q) }.adjustLevel mo.side.isBid
      mo.price (·.reduceQuantity q)).adjustLevel po.side.isBid po.price (·.reduceQuantity q)
    with hbook
  have hpool : book.pool = (e.book.pool.modify m (·.fill q)).modify p (·.fill q) := by
    simp [hbook]
  have hget : ∀ x, book.pool.get x =
      if x = m ∨ x = p then (e.book.pool.get x).fill q else e.book.pool.get x := by
    intro x
    rw [hpool, ObjectPool.get_modify, ObjectPool.get_modify, ObjectPool.get_modify]
    by_cases hxp : x = p
    · simp [hxp, hne.symm]
    · by_cases hxm : x = m <;> simp [hxp, hxm, hne]
  have hlookup : ∀ s t, (book.levels s).lookup t = ((e.book.levels s).lookup t).map fun l =>
      if po.At s t then (if mo.At s t then l.reduceQuantity q else l).reduceQuantity q
      else if mo.At s t then l.reduceQuantity q else l := by
    intro s t
    rw [hbook, lookup_adjustLevel, lookup_adjustLevel, Option.map_map]
    rfl
  refine ⟨book, rfl, ?_, ?_, hget⟩
  · refine h.retouch ?_ (by simp [hbook]) (fun x _ => ?_) (fun s t => ?_) hlookup
    · rw [hpool]
      exact (h.live.modify hm _).modify hp _
    · rw [hget]
      split <;> exact ⟨rfl, rfl, rfl, fun hice => ⟨hice, rfl⟩, rfl, rfl⟩
    · have hred : Retouches fun l => l.reduceQuantity q := retouches_total (· - q)
      by_cases hpat : po.At s t <;> by_cases hmat : mo.At s t <;>
        simp only [hpat, hmat, if_true, if_false]
      · exact hred.comp hred
      · exact hred
      · exact hred
      · exact retouches_id
  · simp only [view, BookView.fill, BookView.mk.injEq, Order.id_unlink, Order.at_unlink]
    refine ⟨?_, ?_, by funext s; simp [hbook]; rfl⟩
    · rw [hmo, ← h.map_amend hm (fun x => (e.book.pool.get x).unlink) fun x _ => rfl, hpo,
        ← h.map_amend hp (fun x => if x = m then ((e.book.pool.get x).unlink).fill q
          else (e.book.pool.get x).unlink) fun x _ => by split <;> rfl]
      apply List.map_congr_left
      intro x _
      rw [hget]
      by_cases hxp : x = p
      · simp only [hxp, or_true, if_true, hne.symm, if_false]
        rfl
      · by_cases hxm : x = m
        · simp only [hxm, true_or, if_true, hne, if_false]
          rfl
        · simp only [hxp, hxm, or_self, if_false]
    · funext s t
      rw [hlookup]
      cases hl : (e.book.levels s).lookup t with
      | none =>
        have hnil := h.slots s t
        rw [hl] at hnil
        have hnot : ∀ x ∈ ps, ¬ (e.book.pool.get x).At s t := fun x hx hat => by
          simpa [show queueAt _ _ _ _ = [] from hnil] using mem_queueAt.mpr ⟨hx, hat⟩
        simp [hmo, hpo, hnot m hm, hnot p hp]
      | some level =>
        by_cases hpat : po.At s t <;> by_cases hmat : mo.At s t <;>
          simp [hpat, hmat, PriceLevel.reduceQuantity]

/-- The test for a consumed display slice never succeeds, so an unfilled maker stays put. -/
theorem settleMaker_of_not_filled (h : e.book.Rep ps) (hm : m ∈ ps) (ord : HashOrder)
    (hf : (e.book.pool.get m).isFilled = false) : e.settleMaker ord m = e := by
  simp only [settleMaker, hf, Bool.false_eq_true, if_false]
  by_cases hice : (e.book.pool.get m).type = .iceberg
  · have hdisplay : 0 < (e.book.pool.get m).displayQty :=
      h.display (e.book.pool.get m).unlink (mem_orders.mpr ⟨m, hm, rfl⟩) hice
    have hmod := Int.tmod_lt_of_pos (e.book.pool.get m).filledQuantity hdisplay
    rw [if_pos hice, if_neg]
    rintro ⟨hle, -⟩
    omega
  · rw [if_neg hice]

/-- A filled maker is discarded. -/
theorem settleMaker_of_filled (h : e.book.Rep ps) (hm : m ∈ ps) (ord : HashOrder)
    (hf : (e.book.pool.get m).isFilled = true) :
    e.settleMaker ord m =
      { e with book := e.book.discard ord (e.book.pool.get m).id m } := by
  simp only [settleMaker, hf, if_true, h.release_eq_discard ord hm]

/-- A fill together with what follows it for the maker. -/
theorem fill_settleMaker (h : e.book.Rep ps) (hm : m ∈ ps) (hp : p ∈ ps) (hne : m ≠ p) (q : Int)
    (ord : HashOrder) :
    ∃ book ps', (e.executeFill m p q).settleMaker ord m =
        { e.record (fillMsg e.fees (e.book.pool.get m) (e.book.pool.get p).id q) with book } ∧
      book.Rep ps' ∧ p ∈ ps' ∧ (book.pool.get p).unlink = (e.book.pool.get p).unlink.fill q ∧
      if ((e.book.pool.get m).unlink.fill q).isFilled then
        ((e.book.view ps).fill (e.book.pool.get m).unlink (e.book.pool.get p).unlink q).Dropped
          ((e.book.pool.get m).unlink.fill q) (book.view ps')
      else book.view ps' =
        (e.book.view ps).fill (e.book.pool.get m).unlink (e.book.pool.get p).unlink q := by
  obtain ⟨book, hfill, hrep, hview, hget⟩ := h.executeFill hm hp hne q
  have hgm : book.pool.get m = (e.book.pool.get m).fill q := by simp [hget]
  have hgp : (book.pool.get p).unlink = (e.book.pool.get p).unlink.fill q := by
    rw [hget, if_pos (Or.inr rfl)]
    rfl
  rw [hfill]
  cases hf : ((e.book.pool.get m).unlink.fill q).isFilled with
  | true =>
    have hf' : (book.pool.get m).isFilled = true := by
      rw [hgm]
      exact hf
    obtain ⟨hrep', hdrop⟩ := hrep.discard ord hm
    refine ⟨_, _, settleMaker_of_filled (e := { e with book }.record _) hrep hm ord hf', hrep',
      (List.mem_erase_of_ne hne.symm).mpr hp, ?_, ?_⟩
    · exact (hrep.get_discard ord hm hne.symm).trans hgp
    · have hmu : (book.pool.get m).unlink = (e.book.pool.get m).unlink.fill q :=
        congrArg Order.unlink hgm
      rw [if_pos rfl, ← hview]
      rwa [hmu] at hdrop
  | false =>
    have hf' : (book.pool.get m).isFilled = false := by
      rw [hgm]
      exact hf
    refine ⟨book, ps, settleMaker_of_not_filled (e := { e with book }.record _) hrep hm ord hf',
      hrep, hp, hgp, ?_⟩
    rw [if_neg Bool.false_ne_true]
    exact hview

/-- The front order of the best level of the other side trades with the incoming order. -/
theorem trade_bestOrder (h : e.book.Rep ps) (hp : p ∈ ps) (ord : HashOrder) :
    let i := (e.book.pool.get p).unlink
    let q := min i.remaining (makerAvailable (e.book.pool.get m))
    0 < i.remaining → e.book.best (!i.side.isBid) ≠ invalidPrice →
      ¬ Incompatible i (e.book.best (!i.side.isBid)) →
      e.book.bestOrder (!i.side.isBid) = some m →
      m ∈ ps ∧ m ≠ p ∧ ∃ book ps', (e.executeFill m p q).settleMaker ord m =
          { e.record (fillMsg e.fees (e.book.pool.get m) i.id q) with book } ∧
        book.Rep ps' ∧ p ∈ ps' ∧ (book.pool.get p).unlink = i.fill q ∧
        (e.book.view ps).Trade i (e.book.pool.get m).unlink q (book.view ps') := by
  intro i q hrem hinv hinc hbest
  rw [h.bestOrder_eq hinv] at hbest
  obtain ⟨hm, hmat⟩ := mem_queueAt.mp (List.mem_of_head? hbest)
  have hne : m ≠ p := by
    rintro rfl
    simpa [i] using hmat.1
  obtain ⟨book, ps', hsettle, hrep, hp', hget, hafter⟩ := h.fill_settleMaker hm hp hne q ord
  refine ⟨hm, hne, book, ps', hsettle, hrep, hp', hget, mem_orders.mpr ⟨p, hp, rfl⟩, ?_, hrem, hinv,
    hinc, rfl, hafter⟩
  rw [level_view, List.head?_map]
  exact congrArg (Option.map _) hbest

/-- One pass of the matching loop either exits or is one trade. -/
theorem matchStep_cases (h : e.book.Rep ps) (hp : p ∈ ps) (ord : HashOrder) :
    let i := (e.book.pool.get p).unlink
    ((e.book.view ps).Stops i ∧ e.matchStep ord p = none) ∨
      ∃ mo q book ps', e.matchStep ord p =
          some { e.record (fillMsg e.fees mo i.id q) with book } ∧
        book.Rep ps' ∧ p ∈ ps' ∧ (book.pool.get p).unlink = i.fill q ∧
        (e.book.view ps).Trade i mo q (book.view ps') := by
  intro i
  set s := !i.side.isBid with hs
  have hstep : e.matchStep ord p = if i.remaining ≤ 0 then none
      else if e.book.best s = invalidPrice then none
      else if Incompatible i (e.book.best s) then none
      else (e.book.bestOrder s).map fun maker => (e.executeFill maker p
        (min i.remaining (makerAvailable (e.book.pool.get maker)))).settleMaker ord maker := by
    refine if_congr Iff.rfl rfl (if_congr Iff.rfl rfl (if_congr Iff.rfl rfl ?_))
    change _ = Option.map _ (e.book.bestOrder (!(e.book.pool.get p).side.isBid))
    cases e.book.bestOrder (!(e.book.pool.get p).side.isBid) <;> rfl
  rw [hstep]
  by_cases hrem : i.remaining ≤ 0
  · exact Or.inl ⟨Or.inl hrem, if_pos hrem⟩
  by_cases hinv : e.book.best s = invalidPrice
  · exact Or.inl ⟨Or.inr (Or.inl hinv), by rw [if_neg hrem, if_pos hinv]⟩
  by_cases hinc : Incompatible i (e.book.best s)
  · exact Or.inl ⟨Or.inr (Or.inr (Or.inl hinc)), by rw [if_neg hrem, if_neg hinv, if_pos hinc]⟩
  rw [if_neg hrem, if_neg hinv, if_neg hinc]
  cases hbest : e.book.bestOrder s with
  | none =>
    rw [h.bestOrder_eq hinv, List.head?_eq_none_iff] at hbest
    exact Or.inl ⟨Or.inr (Or.inr (Or.inr (level_view_eq_nil_iff.mpr hbest))), rfl⟩
  | some m =>
    obtain ⟨-, -, book, ps', hsettle, hrep, hp', hget, htrade⟩ :=
      h.trade_bestOrder hp ord (not_le.mp hrem) hinv hinc hbest
    exact Or.inr ⟨(e.book.pool.get m).unlink, _, book, ps', congrArg some hsettle, hrep, hp', hget,
      htrade⟩

end OrderBook.Rep

namespace BookView

variable {v v' : BookView} {i m : Order} {q : Int}

/-- The maker rests at the cached best price of the other side. -/
theorem Trade.maker_at (h : v.Trade i m q v') :
    m ∈ v.orders ∧ m.At (!i.side.isBid) (v.best (!i.side.isBid)) :=
  mem_level.mp (List.mem_of_head? h.maker)

/-- The maker is not the incoming order. -/
theorem Trade.id_ne (h : v.Trade i m q v') (hv : v.Sound) : m.id ≠ i.id := by
  intro hid
  have hat := h.maker_at.2.1
  rw [hv.eq_of_id h.maker_at.1 h.taker hid] at hat
  simp at hat

/-- A trade never executes a negative quantity, nor more than either side has left. -/
theorem Trade.qty_bounds (h : v.Trade i m q v') (hv : v.Sound) :
    0 ≤ q ∧ q ≤ i.remaining ∧ q ≤ m.remaining := by
  have hm := hv.nonneg m h.maker_at.1
  have hi := h.unfilled
  rw [h.qty, makerAvailable]
  split <;> omega

/-- A maker that stays in the book has consumed some of the incoming order. -/
theorem Trade.qty_pos (h : v.Trade i m q v') (hf : (m.fill q).isFilled = false) : 0 < q := by
  have hnf : ¬ (m.fill q).remaining ≤ 0 := by
    rw [← Order.isFilled_iff, hf]
    exact Bool.false_ne_true
  rw [Order.remaining_fill] at hnf
  have hi := h.unfilled
  have hq := h.qty
  rw [makerAvailable] at hq
  split at hq <;> omega

/-- A trade first fills both orders; a filled maker is then dropped. -/
theorem Trade.after_cases (h : v.Trade i m q v') :
    (m.remaining ≤ q ∧ (v.fill m i q).Dropped (m.fill q) v') ∨
      q < m.remaining ∧ 0 < q ∧ v' = v.fill m i q := by
  have hafter := h.after
  cases hf : (m.fill q).isFilled with
  | true =>
    rw [if_pos hf] at hafter
    have := (Order.isFilled_iff _).mp hf
    rw [Order.remaining_fill] at this
    exact Or.inl ⟨by omega, hafter⟩
  | false =>
    rw [if_neg (by rw [hf]; exact Bool.false_ne_true)] at hafter
    have hnf : ¬ (m.fill q).remaining ≤ 0 := by
      rw [← Order.isFilled_iff, hf]
      exact Bool.false_ne_true
    rw [Order.remaining_fill] at hnf
    exact Or.inr ⟨by omega, h.qty_pos hf, hafter⟩

/-- The fill of a trade, before a filled maker leaves, keeps a view sound. -/
theorem Trade.sound_fill (h : v.Trade i m q v') (hv : v.Sound) : (v.fill m i q).Sound := by
  obtain ⟨-, hqi, hqm⟩ := h.qty_bounds hv
  exact hv.fill h.maker_at.1 h.taker (h.id_ne hv) hqm hqi

/-- The filled maker of a trade is in the book after it. -/
theorem Trade.maker_mem (h : v.Trade i m q v') (hv : v.Sound) :
    m.fill q ∈ (v.fill m i q).orders := by
  rw [orders_fill (h.id_ne hv), List.mem_map]
  exact ⟨m, h.maker_at.1, by simp⟩

/-- A trade keeps a view sound. -/
theorem Trade.sound (h : v.Trade i m q v') (hv : v.Sound) : v'.Sound := by
  have hfill := h.sound_fill hv
  rcases h.after_cases with ⟨-, hdrop⟩ | ⟨-, -, rfl⟩
  · exact hdrop.sound hfill
  · exact hfill

/-- Each trade removes a maker or consumes some of the incoming order. -/
theorem Trade.measure_lt (h : v.Trade i m q v') (hv : v.Sound) :
    v'.orders.length + (i.fill q).remaining.toNat < v.orders.length + i.remaining.toNat := by
  have hb := h.qty_bounds hv
  have hi := h.unfilled
  rw [Order.remaining_fill]
  rcases h.after_cases with ⟨-, hdrop⟩ | ⟨-, hpos, rfl⟩
  · have hmem := h.maker_mem hv
    have hlt := hdrop.length_lt hmem rfl
    rw [length_orders_fill] at hlt
    omega
  · rw [length_orders_fill]
    omega

end BookView

/-- Deliver a list of fills and install the book they leave. -/
def MatchingEngine.settle (e : MatchingEngine) (fills : List FillMsg) (book : OrderBook) :
    MatchingEngine :=
  { fills.foldl MatchingEngine.record e with book }

/-- Delivering fills does not look at the book. -/
theorem MatchingEngine.foldl_record_book (e : MatchingEngine) (fills : List FillMsg)
    (book : OrderBook) : fills.foldl MatchingEngine.record { e with book } =
      { fills.foldl MatchingEngine.record e with book } := by
  induction fills generalizing e with
  | nil => rfl
  | cons fill fills ih => exact ih (e.record fill)

@[simp] theorem MatchingEngine.book_settle (e : MatchingEngine) (fills : List FillMsg)
    (book : OrderBook) : (e.settle fills book).book = book := rfl

@[simp] theorem MatchingEngine.fees_settle (e : MatchingEngine) (fills : List FillMsg)
    (book : OrderBook) : (e.settle fills book).fees = e.fees := by
  unfold settle
  induction fills generalizing e with
  | nil => rfl
  | cons fill fills ih => exact ih (e.record fill)

@[simp] theorem MatchingEngine.fills_settle (e : MatchingEngine) (fills : List FillMsg)
    (book : OrderBook) : (e.settle fills book).fills = e.fills ++ fills := by
  unfold settle
  induction fills generalizing e with
  | nil => exact (List.append_nil _).symm
  | cons fill fills ih => exact (ih (e.record fill)).trans (List.append_assoc ..)

/-- The messages of the trades of one incoming order. -/
def tradeMsgs (fees : FeeSchedule) (takerId : OrderId) (trades : List (Order × Int)) :
    List FillMsg :=
  trades.map fun trade => fillMsg fees trade.1 takerId trade.2

namespace OrderBook.Rep

variable {e : MatchingEngine} {ps : List Ptr} {p : Ptr}

/-- With enough fuel the matching loop ends by one of its exits. -/
theorem matchLoop_spec (h : e.book.Rep ps) (hv : (e.book.view ps).Sound) (hp : p ∈ ps)
    (ord : HashOrder) {fuel : Nat}
    (hfuel : ps.length + (e.book.pool.get p).remaining.toNat < fuel) :
    ∃ trades book ps', matchLoop ord p fuel e =
        some (e.settle (tradeMsgs e.fees (e.book.pool.get p).id trades) book) ∧
      book.Rep ps' ∧ p ∈ ps' ∧ (book.view ps').Sound ∧
      (e.book.view ps).Matched (e.book.pool.get p).unlink trades (book.view ps')
        (book.pool.get p).unlink := by
  induction fuel generalizing e ps with
  | zero => omega
  | succ fuel ih =>
    rw [matchLoop]
    rcases h.matchStep_cases hp ord with
      ⟨hstop, hnone⟩ | ⟨m, q, book, ps', hsome, hrep, hp', hget, htrade⟩
    · rw [hnone]
      exact ⟨[], e.book, ps, rfl, h, hp, hv, .stop hstop⟩
    · rw [hsome]
      have hlt := htrade.measure_lt hv
      have hid : (book.pool.get p).unlink.id = (e.book.pool.get p).id := by rw [hget]; rfl
      have hrem : (book.pool.get p).unlink.remaining =
        ((e.book.pool.get p).unlink.fill q).remaining := by rw [hget]
      rw [Order.id_unlink] at hid
      rw [Order.remaining_unlink] at hrem
      have hlen : (book.view ps').orders.length = ps'.length := by simp [view]
      have hlen' : (e.book.view ps).orders.length = ps.length := by simp [view]
      obtain ⟨trades, book', ps'', hloop, hrep', hp'', hv', hmatched⟩ :=
        ih (e := { e.record (fillMsg e.fees m (e.book.pool.get p).id q) with book }) hrep
          (htrade.sound hv) hp' (by
            change ps'.length + (book.pool.get p).remaining.toNat < fuel
            rw [hrem, ← hlen]
            rw [hlen', Order.remaining_unlink] at hlt
            omega)
      refine ⟨(m, q) :: trades, book', ps'', ?_, hrep', hp'', hv', .step htrade (hget ▸ hmatched)⟩
      refine hloop.trans ?_
      simp only [tradeMsgs, List.map_cons, MatchingEngine.settle, List.foldl_cons, hid,
        MatchingEngine.foldl_record_book]
      rfl

end OrderBook.Rep

end LiquidityArena

import LiquidityArena.Correctness.Consistency
import LiquidityArena.View.Observe
import LiquidityArena.Lib.Loop

/-!
# The matching loop on every reachable book

Each pass of `match_order` executes something or removes a maker, so the loop takes an
exit, whatever orders were sent before. What remains of the incoming order is never
negative, and the makers that are icebergs display something. The cached best price leads
to a maker as long as all orders have a side that is named; the removal of an order with
another side byte can leave a best ask behind at which nobody rests.
-/

namespace LiquidityArena

open OrderBook

namespace MatchingEngine

/-- The side that the order in a slot is matched against. -/
def opposite (e : MatchingEngine) (p : Ptr) : Bool := !(e.book.pool.get p).side.isBid

/-- The loop will go on to take a maker from the cached best price. -/
def TakesMaker (e : MatchingEngine) (p : Ptr) : Prop :=
  0 < (e.book.pool.get p).remaining ∧ e.book.best (e.opposite p) ≠ invalidPrice ∧
    ¬ Incompatible (e.book.pool.get p) (e.book.best (e.opposite p))

/-- There is a maker at the cached best price. -/
def FindsMaker (e : MatchingEngine) (p : Ptr) : Prop :=
  e.TakesMaker p → (e.book.bestOrder (e.opposite p)).isSome = true

/-- What remains of the incoming order is not negative, and an iceberg it meets displays
something. -/
structure PassSound (e : MatchingEngine) (p : Ptr) : Prop where
  nonneg : 0 ≤ (e.book.pool.get p).remaining
  display : ∀ m, e.book.bestOrder (e.opposite p) = some m →
    (e.book.pool.get m).type = .iceberg → 0 < (e.book.pool.get m).displayQty

/-- The order in the slot is being matched against a book that shows the view. -/
def Passing (e : MatchingEngine) (p : Ptr) (v : BookView) : Prop :=
  ∃ ps, e.book.Rep ps ∧ p ∈ ps ∧ e.book.view ps = v ∧ v.Sound

namespace Passing

variable {e : MatchingEngine} {p : Ptr} {v : BookView}

/-- The book of a passing engine shows the view of the pass. -/
theorem shows (h : e.Passing p v) : e.book.Shows v := by
  obtain ⟨ps, hrep, -, hview, hv⟩ := h
  exact ⟨ps, hrep, hview, hv⟩

/-- A pass is an exit or a trade. -/
theorem step (h : e.Passing p v) (ord : HashOrder) :
    e.matchStep ord p = none ∨ ∃ m q e' v', e.matchStep ord p = some e' ∧ e'.Passing p v' ∧
      v.Trade (e.book.pool.get p).unlink m q v' ∧
      (e'.book.pool.get p).unlink = (e.book.pool.get p).unlink.fill q := by
  obtain ⟨ps, hrep, hp, rfl, hv⟩ := h
  rcases hrep.matchStep_cases hp ord with
    ⟨-, hexit⟩ | ⟨m, q, book, ps', hsome, hrep', hp', hget, htrade⟩
  · exact Or.inl hexit
  · exact Or.inr ⟨m, q, _, _, hsome, ⟨ps', hrep', hp', rfl, htrade.sound hv⟩, htrade, hget⟩

private theorem passSound (h : e.Passing p v) : e.PassSound p := by
  obtain ⟨ps, hrep, hp, rfl, hv⟩ := h
  have hi := hv.nonneg _ (mem_orders.mpr ⟨p, hp, rfl⟩)
  refine ⟨hi, fun m hm hice => ?_⟩
  by_cases hinv : e.book.best (e.opposite p) = invalidPrice
  · rw [bestOrder, if_pos hinv] at hm
    cases hm
  · rw [hrep.bestOrder_eq hinv] at hm
    have hmem := (mem_queueAt.mp (List.mem_of_head? hm)).1
    have hdisplay := hrep.display _ (mem_orders.mpr ⟨m, hmem, rfl⟩)
    exact hdisplay hice

/-- The loop takes an exit. -/
theorem exists_exit (h : e.Passing p v) (ord : HashOrder) :
    ∃ e', Loop.Reaches (matchStep · ord p) e e' ∧ e'.matchStep ord p = none := by
  refine Loop.exists_exit (matchStep · ord p) (fun e => ∃ v, e.Passing p v)
    (fun e => e.book.totalOrders + (e.book.pool.get p).unlink.remaining.toNat) ?_ ⟨v, h⟩
  rintro e e' ⟨v, h⟩ hpass
  rcases h.step ord with hnone | ⟨m, q, e'', v', hsome, h', htrade, hget⟩
  · cases hnone.symm.trans hpass
  · obtain rfl := Option.some.inj (hsome.symm.trans hpass)
    exact ⟨⟨v', h'⟩, h.shows.measure_lt h'.shows htrade hget⟩

end Passing

/-- The opposite side of the order in the slot has a maker at its cached best price. -/
theorem Passing.findsMaker {e : MatchingEngine} {p : Ptr} {v : BookView} (h : e.Passing p v)
    (ha : v.Anchored (e.opposite p)) : e.FindsMaker p := by
  rintro ⟨-, hinv, -⟩
  obtain ⟨ps, hrep, -, rfl, -⟩ := h
  rw [hrep.bestOrder_eq hinv, List.isSome_head?, ne_eq, ← level_view_eq_nil_iff, ← ne_eq,
    BookView.level_ne_nil_iff]
  exact ha.resolve_left hinv

end MatchingEngine

namespace BookView

variable {v v' : BookView} {i m : Order} {q : Int}

/-- The orders of a side have a side that is named, and its best price is anchored. -/
structure NamedOn (v : BookView) (s : Bool) : Prop where
  sound : v.Sound
  sides : v.All fun o => o.side.isBid = s → o.side.Named
  anchored : v.Anchored s

private theorem Trade.namedOn (h : v.Trade i m q v') {s : Bool} (hv : v.NamedOn s) : v'.NamedOn s :=
  Changes.invariant (h.changes hv.sound fun _ => False) (·.NamedOn s)
    (fun hchange hw => ⟨hchange.sound hw.sound, hchange.all False.elim id id hw.sides,
      hchange.anchored hw.sound hw.sides hw.anchored⟩) hv

/-- The side an order is matched against does not contain it. -/
theorem Named.enter (hv : v.Named) {n : NewOrder} (hacc : v.Accepts n) :
    (v.enter n.order).NamedOn !n.order.side.isBid where
  sound := hv.sound.enter hacc
  sides := by
    intro o ho hs
    rcases List.mem_append.mp ho with ho | ho
    · exact hv.sides o ho
    · rw [List.mem_singleton.mp ho] at hs
      simp at hs
  anchored := (hv.anchored _).place _ _

end BookView

namespace MatchingEngine

variable {e : MatchingEngine} {p : Ptr} {v : BookView}

/-- One pass of a loop. -/
theorem Passing.next (h : e.Passing p v) {ord : HashOrder} {e' : MatchingEngine}
    (hpass : e.matchStep ord p = some e') :
    ∃ v' m q, e'.Passing p v' ∧ v.Trade (e.book.pool.get p).unlink m q v' ∧
      e'.opposite p = e.opposite p := by
  rcases h.step ord with hnone | ⟨m, q, e'', v', hsome, h', htrade, hget⟩
  · cases hnone.symm.trans hpass
  · obtain rfl := Option.some.inj (hsome.symm.trans hpass)
    have hside := congrArg Order.side hget
    exact ⟨v', m, q, h', htrade, congrArg (fun side : Side => !side.isBid) hside⟩

/-- Every pass of a loop is sound. -/
theorem Passing.reaches_passSound (h : e.Passing p v) {ord : HashOrder} {e' : MatchingEngine}
    (hreaches : Loop.Reaches (matchStep · ord p) e e') : e'.PassSound p := by
  have hstep : ∀ {e e' : MatchingEngine}, (∃ v, e.Passing p v) →
      e.matchStep ord p = some e' → ∃ v, e'.Passing p v := by
    rintro e e' ⟨v, h⟩ hpass
    obtain ⟨v', -, -, h', -⟩ := h.next hpass
    exact ⟨v', h'⟩
  obtain ⟨v', h'⟩ := hreaches.invariant (fun e => ∃ v, e.Passing p v) hstep ⟨v, h⟩
  exact h'.passSound

/-- Every pass of a loop against orders with named sides finds a maker. -/
theorem Passing.reaches_findsMaker (h : e.Passing p v) (hv : v.NamedOn (e.opposite p))
    {ord : HashOrder} {e' : MatchingEngine} (hreaches : Loop.Reaches (matchStep · ord p) e e') :
    e'.FindsMaker p := by
  have hstep : ∀ {e e' : MatchingEngine}, (∃ v, e.Passing p v ∧ v.NamedOn (e.opposite p)) →
      e.matchStep ord p = some e' → ∃ v, e'.Passing p v ∧ v.NamedOn (e'.opposite p) := by
    rintro e e' ⟨v, h, hv⟩ hpass
    obtain ⟨v', m, q, h', htrade, hside⟩ := h.next hpass
    exact ⟨v', h', hside ▸ htrade.namedOn hv⟩
  obtain ⟨v', h', hv'⟩ := hreaches.invariant
    (fun e => ∃ v, e.Passing p v ∧ v.NamedOn (e.opposite p)) hstep ⟨v, h, hv⟩
  exact h'.findsMaker hv'.anchored

/-- The state in which an accepted order is matched. -/
theorem entered_passing (h : e.book.Shows v) {n : NewOrder} {e₀ : MatchingEngine}
    (hentered : e.entered n = some (p, e₀)) :
    v.Accepts n ∧ e₀.Passing p (v.enter n.order) ∧ (e₀.book.pool.get p).unlink = n.order := by
  obtain ⟨ps, hrep, rfl, hv⟩ := h
  rcases hrep.entered_cases n with ⟨hnone, -⟩ | ⟨p', e₁, hsome, hacc, hrep', hview, hget⟩
  · cases hnone.symm.trans hentered
  · obtain ⟨rfl, rfl⟩ := Prod.mk.inj (Option.some.inj (hsome.symm.trans hentered))
    exact ⟨hacc, ⟨_, hrep', by simp, hview, hv.enter hacc⟩, hget⟩

end MatchingEngine

/-- An accepted call of a named side keeps the sides named and the best prices anchored. -/
theorem BookView.Effect.named_of_admits {b : OrderBook} {v v' : BookView}
    {trades : List (Order × Int)} {call : Call} (hshows : b.Shows v) (hv : v.Named)
    (hcall : AdmitsNamed b call) (h : v.Effect call trades v') : v'.Named := by
  rcases h.unchanged_or_named hshows hcall with rfl | hnamed
  · exact hv
  · refine h.named ?_ hv
    cases call with
    | newOrder n => exact hnamed n rfl
    | cancel id => trivial
    | modify id price qty => trivial

/-- After every run of calls with arbitrary arguments, the loop of every order that is matched takes
an exit, never leaves a negative remainder and meets no iceberg without a display; if the accepted
orders of the run had a named side, every pass that looks for a maker finds one. -/
theorem run_matching_loop (fees : FeeSchedule) (calls : List (HashOrder × Call)) :
    ∃ e, (MatchingEngine.init fees).run calls = some e ∧
      ∀ (ord : HashOrder) (n : NewOrder) (p : Ptr) (e₀ : MatchingEngine),
        e.entered n = some (p, e₀) →
        (∃ e', Loop.Reaches (MatchingEngine.matchStep · ord p) e₀ e' ∧
          e'.matchStep ord p = none) ∧
        (∀ e', Loop.Reaches (MatchingEngine.matchStep · ord p) e₀ e' → e'.PassSound p) ∧
        ((MatchingEngine.init fees).RunMeets AdmitsNamed calls →
          ∀ e', Loop.Reaches (MatchingEngine.matchStep · ord p) e₀ e' → e'.FindsMaker p) := by
  obtain ⟨e, v, hrun, hshows, -⟩ := MatchingEngine.run_rule (fun _ => True) (fun _ _ => True)
    (fun _ _ _ _ _ => trivial) (e := MatchingEngine.init fees) OrderBook.shows_init trivial
    (MatchingEngine.runMeets_of_forall (fun _ _ => trivial) _)
  refine ⟨e, hrun, fun ord n p e₀ hentered => ?_⟩
  obtain ⟨hacc, hpassing, hget⟩ := MatchingEngine.entered_passing hshows hentered
  have hside : e₀.opposite p = !n.order.side.isBid := by
    rw [← hget]
    rfl
  refine ⟨hpassing.exists_exit ord, fun e' => hpassing.reaches_passSound,
    fun hmeets e' hreaches => ?_⟩
  obtain ⟨e₁, v₁, hrun₁, hshows₁, hv₁⟩ := MatchingEngine.run_rule BookView.Named AdmitsNamed
    (fun hshows hv hcall heffect _ => heffect.named_of_admits hshows hv hcall)
    (e := MatchingEngine.init fees) OrderBook.shows_init BookView.named_empty hmeets
  obtain rfl := Option.some.inj (hrun.symm.trans hrun₁)
  obtain ⟨hacc₁, hpassing₁, -⟩ := MatchingEngine.entered_passing hshows₁ hentered
  exact hpassing₁.reaches_findsMaker (hside ▸ hv₁.enter hacc₁) hreaches

/-- Two asks with the side byte 7 rest at 100 and 90; the latter is cancelled. A bid at 95 looks for
a maker at the best ask 90 and finds none. -/
theorem stale_best_has_no_maker :
    ∃ e p e₀, (MatchingEngine.init {}).run
        [(HashOrder.recent, .newOrder ⟨1, .raw 7, .limit, 100, 5, 0, 0⟩),
          (HashOrder.recent, .newOrder ⟨2, .raw 7, .limit, 90, 5, 0, 0⟩),
          (HashOrder.recent, .cancel 2)] = some e ∧
      e.entered ⟨3, .bid, .limit, 95, 5, 0, 0⟩ = some (p, e₀) ∧
      e₀.book.bestAsk = 90 ∧ ¬ e₀.FindsMaker p := by
  refine ⟨_, _, _, rfl, rfl, rfl, fun hfinds => ?_⟩
  exact absurd (hfinds ⟨by decide, by decide, by decide⟩) (by decide)

end LiquidityArena

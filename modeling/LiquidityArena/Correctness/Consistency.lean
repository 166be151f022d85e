import LiquidityArena.View.Changes

/-!
# One set of orders behind five structures

After any run the pool, the id map, the level queues, the level counters and the
cached best prices of the book describe the same set of orders. The prices are
arbitrary, so this includes orders that rest at the sentinel price.
-/

namespace LiquidityArena

open OrderBook

/-- The call names the bid or the ask side, if it names a side at all. -/
def Call.NamesSide : Call → Prop
  | .newOrder n => n.side.Named
  | .cancel _ => True
  | .modify _ _ _ => True

instance : DecidablePred Call.NamesSide
  | .newOrder n => inferInstanceAs (Decidable n.side.Named)
  | .cancel _ => inferInstanceAs (Decidable True)
  | .modify _ _ _ => inferInstanceAs (Decidable True)

/-- The live slots and the level queues explain the whole book. -/
structure OrderBook.ConsistentWith (b : OrderBook) (live : List Ptr)
    (queue : Bool → Int → List Ptr) : Prop where
  /-- The pool hands out exactly the live slots; its free list is all the others. -/
  pool : b.pool.Live live
  /-- The id map sends each key to a live order with that id. -/
  mapped : ∀ id p, b.orderMap.lookup id = some p → p ∈ live ∧ (b.pool.get p).id = id
  /-- Every live order is queued once, at the level of its side and price. -/
  queued : ∀ p ∈ live, ∀ s t, (queue s t).count p = if (b.pool.get p).At s t then 1 else 0
  /-- Every queued order is known to the id map. -/
  known : ∀ s t, ∀ p ∈ queue s t, b.orderMap.lookup (b.pool.get p).id = some p
  /-- Every level is linked as its queue, counts it and is not empty. -/
  level : ∀ s t level, (b.levels s).lookup t = some level →
    level.Holds b.pool (queue s t) ∧ level.orderCount = (queue s t).length ∧ level.empty = false
  /-- Where there is no level there is no queue. -/
  absent : ∀ s t, (b.levels s).lookup t = none → queue s t = []
  /-- The id map has as many entries as the pool has allocated slots. -/
  size : b.totalOrders = b.pool.allocatedCount
  /-- A cached best price is the sentinel or the key of a level. -/
  best : ∀ s, b.best s = invalidPrice ∨ ((b.levels s).lookup (b.best s)).isSome = true

/-- Book, id map, level queues and pool describe one set of orders. -/
def OrderBook.Consistent (b : OrderBook) : Prop := ∃ live queue, b.ConsistentWith live queue

/-- A represented book with anchored best prices is consistent. -/
theorem OrderBook.Rep.consistent {b : OrderBook} {ps : List Ptr} (h : b.Rep ps)
    (ha : ∀ s, (b.view ps).Anchored s) : b.ConsistentWith ps (queueAt b.pool ps) where
  pool := h.live
  mapped id p hl := (h.map id p).mp hl
  queued p hp s t := by
    rw [queueAt]
    by_cases hat : (b.pool.get p).At s t
    · rw [List.count_filter (by simpa using hat), if_pos hat]
      exact List.count_eq_one_of_mem h.live.nodup hp
    · rw [if_neg hat, List.count_eq_zero]
      exact fun hmem => hat (mem_queueAt.mp hmem).2
  known s t p hp := (h.map _ p).mpr ⟨(mem_queueAt.mp hp).1, rfl⟩
  level s t level hl := by
    have hslot := h.slots s t
    rw [hl] at hslot
    refine ⟨hslot.1, hslot.1.count, ?_⟩
    rw [← Bool.not_eq_true, hslot.1.empty_iff]
    exact hslot.2.1
  absent s t hl := by
    have hslot := h.slots s t
    rwa [hl] at hslot
  size := by rw [h.totalOrders_eq, h.live.count]
  best s := Or.imp_right (fun hocc => h.lookup_isSome_iff.mpr (BookView.occupied_iff.mp hocc)) (ha s)

namespace BookView

variable {v v' : BookView} {trades : List (Order × Int)} {call : Call}

/-- What orders of named sides guarantee of a view. -/
structure Named (v : BookView) : Prop where
  sound : v.Sound
  sides : v.All (·.side.Named)
  anchored : ∀ s, v.Anchored s

/-- The empty view. -/
theorem named_empty : Named ⟨[], fun _ _ => 0, fun _ => invalidPrice⟩ :=
  ⟨⟨List.nodup_nil, by simp⟩, by simp [All], fun _ => Or.inl rfl⟩

/-- Calls that name their side keep the sides named and the best prices anchored. -/
theorem Effect.named (h : v.Effect call trades v') (hcall : call.NamesSide) (hv : v.Named) :
    v'.Named := by
  refine h.invariant hv.sound (·.side.Named) Named ?_ ?_ hv
  · cases call with
    | newOrder n =>
      intro _
      rw [n.side_order]
      exact hcall
    | cancel id => trivial
    | modify id price qty =>
      intro o ho _ _ _ _
      rw [side_reentry]
      exact hv.sides o ho
  · intro w w' hchange hw
    exact ⟨hchange.sound hw.sound, hchange.all id id id hw.sides,
      fun s => hchange.anchored hw.sound (fun o ho _ => hw.sides o ho) (hw.anchored s)⟩

end BookView

/-- In every state reached by calls with arbitrary arguments on the two sides, the
book's structures describe the same set of orders. -/
theorem run_consistent (fees : FeeSchedule) (calls : List (HashOrder × Call))
    (hcalls : ∀ c ∈ calls, c.2.NamesSide) :
    ∃ e, (MatchingEngine.init fees).run calls = some e ∧ e.book.Consistent := by
  obtain ⟨e, v, hrun, ⟨ps, hrep, rfl, -⟩, hv⟩ := MatchingEngine.run_rule BookView.Named
    (fun _ => Call.NamesSide) (fun _ hv hcall heffect _ => BookView.Effect.named heffect hcall hv)
    (e := MatchingEngine.init fees) OrderBook.shows_init BookView.named_empty
    (MatchingEngine.runMeets_of_forall hcalls _)
  exact ⟨e, hrun, ps, _, hrep.consistent hv.anchored⟩

/-- A bid at the sentinel price, entered by a modify, among orders of all types. -/
theorem run_consistent_at_sentinel :
    ∃ e, (MatchingEngine.init {}).run
        [(HashOrder.recent, .newOrder ⟨1, .bid, .limit, 100, 5, 0, 0⟩),
          (HashOrder.recent, .modify 1 invalidPrice 5),
          (HashOrder.recent, .newOrder ⟨2, .ask, .iceberg, 200, 9, 0, 4⟩),
          (HashOrder.recent, .newOrder ⟨3, .bid, .market, 0, 9, 0, 0⟩),
          (HashOrder.recent, .cancel 3)] = some e ∧ e.book.Consistent :=
  run_consistent {} _ (by decide)

end LiquidityArena

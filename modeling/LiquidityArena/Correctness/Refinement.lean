import LiquidityArena.Correctness.TopOfBook

/-!
# When the engine is price-time priority on a list

Fills, queues, counts and best prices follow the abstract book in every run of bids and asks.
The depth of a level is a 32-bit sum, so the engine refines the abstract book as a whole
exactly as long as no level holds more than that.
-/

namespace LiquidityArena

open MatchingEngine OrderBook

/-- After the calls of the run up to any point, the engine agrees with the abstract book. -/
def MatchingEngine.Refines (e : MatchingEngine) (calls : List (HashOrder × Call)) : Prop :=
  ∀ k, ∃ e', e.run (calls.take k) = some e' ∧
    e'.Simulates (PriceTime.run [] ((calls.take k).map (·.2)))

/-- In a run of limit orders, cancels and modifies whose accepted orders are bids and asks, the
engine agrees with the abstract book after every call but for the depth of the levels. -/
theorem run_tracks_price_time (fees : FeeSchedule) (calls : List (HashOrder × Call))
    (hcalls : ∀ c ∈ calls, c.2.Limits)
    (hnamed : (MatchingEngine.init fees).RunMeets AdmitsNamed calls) :
    ∃ e, (MatchingEngine.init fees).run calls = some e ∧
      e.Tracks (PriceTime.run [] (calls.map (·.2))) ∧
      (e.Simulates (PriceTime.run [] (calls.map (·.2))) ↔
        ∀ s t, e.book.restingAt s t < 2 ^ 31) := by
  obtain ⟨e, v, hrun, hshows, hv, hfills, hentries⟩ := OrderBook.Shows.run_tracks
    (e := MatchingEngine.init fees) OrderBook.shows_init BookView.limitBook_empty hcalls hnamed
  have habstract : PriceTime.run [] (calls.map (·.2)) =
      (e.fills.map FillMsg.fill, v.orders.map Order.entry) := Prod.ext hfills.symm hentries.symm
  rw [habstract]
  exact ⟨e, hrun, hshows.tracks hv, hshows.simulates_iff hv⟩

/-- A run of limit orders, cancels and modifies whose accepted orders are bids and asks moves the
engine as the abstract book exactly when none of its calls leaves more at a level than a counter
holds. -/
theorem run_refines_price_time_iff (fees : FeeSchedule) (calls : List (HashOrder × Call))
    (hcalls : ∀ c ∈ calls, c.2.Limits)
    (hnamed : (MatchingEngine.init fees).RunMeets AdmitsNamed calls) :
    (MatchingEngine.init fees).Refines calls ↔
      (MatchingEngine.init fees).RunMeets FitsCounters calls := by
  rw [← run_fitsCounters_iff fees calls hcalls hnamed, MatchingEngine.runAlways_iff_take]
  refine forall_congr' fun k => ?_
  obtain ⟨e, hrun, -, hiff⟩ := run_tracks_price_time fees (calls.take k)
    (fun c hc => hcalls c (List.mem_of_mem_take hc)) (hnamed.take k)
  simp only [hrun, Option.some.injEq, exists_eq_left', hiff]

/-- Two asks at different prices, one of them moved to the other, swept by a bid and cancelled. -/
theorem run_refines_price_time_iff_sweep :
    (MatchingEngine.init {}).Refines
      [(HashOrder.recent, .newOrder ⟨1, .ask, .limit, 101, 5, 0, 0⟩),
        (HashOrder.recent, .newOrder ⟨2, .ask, .limit, 100, 7, 0, 0⟩),
        (HashOrder.recent, .modify 1 100 4),
        (HashOrder.recent, .newOrder ⟨3, .bid, .limit, 100, 9, 0, 0⟩),
        (HashOrder.recent, .cancel 1)] := by
  refine (run_refines_price_time_iff {} _ (by decide) ?_).mpr ?_
  · exact ⟨fun _ => Or.inr rfl, fun _ _ => ⟨fun _ => Or.inr rfl, fun _ _ => ⟨trivial, fun _ _ =>
      ⟨fun _ => Or.inl rfl, fun _ _ => ⟨trivial, fun _ _ => trivial⟩⟩⟩⟩⟩
  · refine ⟨fun _ => by decide, fun e he => ?_⟩
    obtain rfl := Option.some.inj he
    refine ⟨fun _ => by decide, fun e he => ?_⟩
    obtain rfl := Option.some.inj he
    refine ⟨fun o ho _ _ _ => ?_, fun e he => ?_⟩
    · obtain rfl := Option.some.inj ho
      decide
    obtain rfl := Option.some.inj he
    exact ⟨fun _ => by decide, fun _ _ => ⟨trivial, fun _ _ => trivial⟩⟩

/-- Two asks of 2147483647 rest at one price, and the level counts -2. -/
theorem wrapped_level_is_not_abstract :
    ∃ e, (MatchingEngine.init {}).run
        [(HashOrder.recent, .newOrder ⟨1, .ask, .limit, 100, 2147483647, 0, 0⟩),
          (HashOrder.recent, .newOrder ⟨2, .ask, .limit, 100, 2147483647, 0, 0⟩)] = some e ∧
      e.book.levelOf false 100 = some (-2, 2) ∧
      ¬ e.Simulates (PriceTime.run []
        [.newOrder ⟨1, .ask, .limit, 100, 2147483647, 0, 0⟩,
          .newOrder ⟨2, .ask, .limit, 100, 2147483647, 0, 0⟩]) := by
  obtain ⟨e, hrun, -, hiff⟩ := run_tracks_price_time {}
    [(HashOrder.recent, .newOrder ⟨1, .ask, .limit, 100, 2147483647, 0, 0⟩),
      (HashOrder.recent, .newOrder ⟨2, .ask, .limit, 100, 2147483647, 0, 0⟩)] (by decide)
    ⟨fun _ => Or.inr rfl, fun _ _ => ⟨fun _ => Or.inr rfl, fun _ _ => trivial⟩⟩
  refine ⟨e, hrun, ?_, fun hsim => ?_⟩ <;> obtain rfl := Option.some.inj hrun
  · decide
  · exact absurd (hiff.mp hsim false 100) (by decide)

end LiquidityArena

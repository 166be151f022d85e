import LiquidityArena.View.Effects

/-!
# The fee totals of the engine

Every fill adds its rebate and its fee to the totals of the engine. They are the sums over
all fills reported so far, in 64 bits.
-/

namespace LiquidityArena

open MatchingEngine

/-- The rebates of the makers for a list of fills, in exact arithmetic. -/
def FeeSchedule.rebates (fees : FeeSchedule) (fills : List FillMsg) : Int :=
  (fills.map fun fill => fill.price * fill.quantity * fees.makerRebateBps).sum

/-- The fees of the takers for a list of fills, in exact arithmetic. -/
def FeeSchedule.charges (fees : FeeSchedule) (fills : List FillMsg) : Int :=
  (fills.map fun fill => fill.price * fill.quantity * fees.takerFeeBps).sum

/-- The rebates of two lists of fill messages add up. -/
theorem FeeSchedule.rebates_append (fees : FeeSchedule) (fills fills' : List FillMsg) :
    fees.rebates (fills ++ fills') = fees.rebates fills + fees.rebates fills' := by
  rw [rebates, List.map_append, List.sum_append]
  rfl

/-- The charges of two lists of fill messages add up. -/
theorem FeeSchedule.charges_append (fees : FeeSchedule) (fills fills' : List FillMsg) :
    fees.charges (fills ++ fills') = fees.charges fills + fees.charges fills' := by
  rw [charges, List.map_append, List.sum_append]
  rfl

/-- The totals of the engine are those of the fills it has reported. -/
structure MatchingEngine.Accounts (e : MatchingEngine) : Prop where
  rebates : e.totalMakerRebates = toInt64 (e.fees.rebates e.fills)
  charges : e.totalTakerFees = toInt64 (e.fees.charges e.fills)

namespace MatchingEngine

variable {e e' : MatchingEngine} {v : BookView}

/-- A new engine has charged and paid nothing. -/
theorem accounts_init (fees : FeeSchedule) : (MatchingEngine.init fees).Accounts := ⟨rfl, rfl⟩

/-- A fill enters the totals as it enters the list of fills. -/
theorem Accounts.record (h : e.Accounts) (m : Order) (takerId : OrderId) (q : Int) :
    (e.record (fillMsg e.fees m takerId q)).Accounts where
  rebates := by
    simp only [MatchingEngine.record, h.rebates, FeeSchedule.rebates_append]
    simp only [fillMsg, FeeSchedule.makerRebate, toInt64_toInt64_add, toInt64_add_toInt64,
      toInt64_neg_toInt64, neg_neg]
    simp [FeeSchedule.rebates]
  charges := by
    simp only [MatchingEngine.record, h.charges, FeeSchedule.charges_append]
    simp only [fillMsg, FeeSchedule.takerFee, toInt64_toInt64_add, toInt64_add_toInt64]
    simp [FeeSchedule.charges]

/-- The fills of one incoming order enter the totals. -/
theorem Accounts.settle (h : e.Accounts) (takerId : OrderId) (trades : List (Order × Int))
    (book : OrderBook) : (e.settle (tradeMsgs e.fees takerId trades) book).Accounts := by
  have hfold : ∀ (e : MatchingEngine), e.Accounts →
      ((tradeMsgs e.fees takerId trades).foldl MatchingEngine.record e).Accounts := by
    induction trades with
    | nil => exact fun e h => h
    | cons trade trades ih => exact fun e h => ih _ (h.record trade.1 takerId trade.2)
  have hall := hfold e h
  exact ⟨hall.rebates, hall.charges⟩

/-- Every call keeps the totals. -/
theorem Accounts.perform (h : e.Accounts) (hshows : e.book.Shows v) {ord : HashOrder} {call : Call}
    (hcall : e.perform ord call = some e') : e'.Accounts := by
  cases call with
  | newOrder n =>
    obtain ⟨ps, hrep, rfl, hv⟩ := hshows
    obtain ⟨r, trades, book, ps', hnew, -⟩ := hrep.processNewOrder_spec hv ord n
    rw [MatchingEngine.perform, hnew] at hcall
    obtain rfl := Option.some.inj hcall
    exact Accounts.settle (e := { e with totalOrders := e.totalOrders + 1 })
      ⟨h.rebates, h.charges⟩ n.id trades book
  | cancel id =>
    obtain rfl := Option.some.inj hcall
    exact ⟨h.rebates, h.charges⟩
  | modify id price qty =>
    obtain rfl := Option.some.inj hcall
    exact ⟨h.rebates, h.charges⟩

/-- After a run the totals are those of the fills reported in it. -/
theorem Accounts.run (h : e.Accounts) (hshows : e.book.Shows v) {calls : List (HashOrder × Call)}
    (hrun : e.run calls = some e') : e'.Accounts := by
  induction calls generalizing e v with
  | nil =>
    obtain rfl := Option.some.inj hrun
    exact h
  | cons c calls ih =>
    obtain ⟨ord, call⟩ := c
    obtain ⟨e₁, -, v₁, hcall, hshows₁, -⟩ := perform_spec hshows ord call
    rw [MatchingEngine.run, hcall] at hrun
    exact ih (h.perform hshows hcall) hshows₁ hrun

end MatchingEngine

end LiquidityArena

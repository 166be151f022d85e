import LiquidityArena.Lib.MovingAverage
import LiquidityArena.Simulation.Traders

/-!
# The momentum trader follows the trend

Its signal is the difference of two moving averages of the mid prices of the valid updates.
So it never trades against a trend that has not turned, and not at all while the mid price
moves by one tick at most.
-/

namespace LiquidityArena

/-- What a momentum trader is told: a book update in its turn, or a fill. -/
inductive TraderInput where
  | update (msg : TcpClient.BookUpdateMsg) (draws : SignalDraws)
  | fill (msg : TcpClient.FillMsg)

/-- The mid price of an update, if it is valid. -/
def TraderInput.mid? : TraderInput → Option Int
  | .update msg _ =>
    if msg.bestBid ≤ 0 ∨ msg.bestAsk ≤ 0 then none else some ((msg.bestBid + msg.bestAsk) / 2)
  | .fill _ => none

namespace MomentumTrader

/-- The trader after an input, with the orders it returns. -/
def handle (cfg : MomentumTraderConfig) (a : MomentumTrader) :
    TraderInput → Option (List AgentOrder × MomentumTrader)
  | .update msg draws => a.onBookUpdate cfg msg draws
  | .fill msg => some ([], { a with base := a.base.onFill msg })

/-- The trader after a sequence of inputs, with all orders it returned. -/
def run (cfg : MomentumTraderConfig) (a : MomentumTrader) :
    List TraderInput → Option (List AgentOrder × MomentumTrader)
  | [] => some ([], a)
  | input :: inputs =>
    (a.handle cfg input).bind fun (orders, a') =>
      (run cfg a' inputs).map fun (rest, a'') => (orders ++ rest, a'')

/-- The averages are those of the mid prices so far. -/
structure Averages (cfg : MomentumTraderConfig) (mids : List Int) (a : MomentumTrader) : Prop where
  initialized : a.initialized = true ↔ mids ≠ []
  fast : a.fastEma = MovingAverage.average cfg.fastAlpha (mids.map (↑))
  slow : a.slowEma = MovingAverage.average cfg.slowAlpha (mids.map (↑))

/-- An order was sent on the signal of some of the first mid prices. -/
def Signalled (cfg : MomentumTraderConfig) (mids : List Int) (o : AgentOrder) : Prop :=
  let fast := MovingAverage.average cfg.fastAlpha (mids.map ((↑) : Int → ℚ))
  let slow := MovingAverage.average cfg.slowAlpha (mids.map ((↑) : Int → ℚ))
  match o.side with
  | .bid => slow + 1 < fast
  | .ask => fast < slow - 1

variable {cfg : MomentumTraderConfig} {a a' : MomentumTrader} {mids : List Int}
  {orders : List AgentOrder}

private theorem Averages.updateEmas (h : a.Averages cfg mids) (mid : Int) :
    (a.updateEmas cfg mid).Averages cfg (mids ++ [mid]) := by
  have hne : mids ++ [mid] ≠ [] := List.append_ne_nil_of_right_ne_nil _ (List.cons_ne_nil _ _)
  rw [MomentumTrader.updateEmas]
  split_ifs with hinit
  · have hmids : mids.map ((↑) : Int → ℚ) ≠ [] := by simpa using h.initialized.mp hinit
    refine ⟨iff_of_true hinit hne, ?_, ?_⟩
    · rw [List.map_append, List.map_singleton, MovingAverage.average_concat _ hmids, ← h.fast]
      rfl
    · rw [List.map_append, List.map_singleton, MovingAverage.average_concat _ hmids, ← h.slow]
      rfl
  · have hnil : mids = [] := by
      by_contra hsome
      exact hinit (h.initialized.mpr hsome)
    subst hnil
    exact ⟨iff_of_true rfl hne, rfl, rfl⟩

/-- A turn takes the mid price of a valid update into the averages, and returns only orders on their
signal. -/
theorem Averages.handle (h : a.Averages cfg mids) {input : TraderInput}
    (hhandle : a.handle cfg input = some (orders, a')) :
    a'.Averages cfg (mids ++ input.mid?.toList) ∧
      ∀ o ∈ orders, Signalled cfg (mids ++ input.mid?.toList) o := by
  cases input with
  | fill msg =>
    obtain ⟨rfl, rfl⟩ := Prod.mk.inj (Option.some.inj hhandle)
    rw [TraderInput.mid?, Option.toList_none, List.append_nil]
    exact ⟨⟨h.initialized, h.fast, h.slow⟩, fun o ho => absurd ho List.not_mem_nil⟩
  | update msg draws =>
    rw [MomentumTrader.handle, onBookUpdate] at hhandle
    dsimp only at hhandle
    rw [TraderInput.mid?]
    split_ifs at hhandle ⊢ with hinvalid hinit hact hempty hup hdown
    · obtain ⟨rfl, rfl⟩ := Prod.mk.inj (Option.some.inj hhandle)
      rw [Option.toList_none, List.append_nil]
      exact ⟨h, fun o ho => absurd ho List.not_mem_nil⟩
    all_goals
      have hemas := h.updateEmas ((msg.bestBid + msg.bestAsk) / 2)
      rw [Option.toList_some]
    · obtain ⟨rfl, rfl⟩ := Prod.mk.inj (Option.some.inj hhandle)
      exact ⟨hemas, fun o ho => absurd ho List.not_mem_nil⟩
    · obtain ⟨rfl, rfl⟩ := Prod.mk.inj (Option.some.inj hhandle)
      exact ⟨hemas, fun o ho => absurd ho List.not_mem_nil⟩
    · obtain ⟨rfl, rfl⟩ := Prod.mk.inj (Option.some.inj hhandle)
      refine ⟨⟨hemas.initialized, hemas.fast, hemas.slow⟩, fun o ho => ?_⟩
      rw [List.mem_singleton.mp ho]
      rw [hemas.fast, hemas.slow] at hup
      exact hup
    · obtain ⟨rfl, rfl⟩ := Prod.mk.inj (Option.some.inj hhandle)
      refine ⟨⟨hemas.initialized, hemas.fast, hemas.slow⟩, fun o ho => ?_⟩
      rw [List.mem_singleton.mp ho]
      rw [hemas.fast, hemas.slow] at hdown
      exact hdown
    · obtain ⟨rfl, rfl⟩ := Prod.mk.inj (Option.some.inj hhandle)
      exact ⟨hemas, fun o ho => absurd ho List.not_mem_nil⟩

/-- All orders of a run were sent on the signal of the mid prices up to then. -/
theorem Averages.run (h : a.Averages cfg mids) {inputs : List TraderInput}
    (hrun : a.run cfg inputs = some (orders, a')) : ∀ o ∈ orders,
      ∃ seen, seen <+: mids ++ inputs.filterMap TraderInput.mid? ∧ Signalled cfg seen o := by
  induction inputs generalizing a mids orders with
  | nil =>
    obtain ⟨rfl, -⟩ := Prod.mk.inj (Option.some.inj hrun)
    exact fun o ho => absurd ho List.not_mem_nil
  | cons input inputs ih =>
    obtain ⟨⟨first, a₁⟩, hfirst, hmap⟩ := Option.bind_eq_some_iff.mp hrun
    obtain ⟨⟨rest, a₂⟩, hrest, heq⟩ := Option.map_eq_some_iff.mp hmap
    obtain ⟨rfl, rfl⟩ := Prod.mk.inj heq
    obtain ⟨haverages, hsignalled⟩ := h.handle hfirst
    have hmids : mids ++ (input :: inputs).filterMap TraderInput.mid? =
        mids ++ input.mid?.toList ++ inputs.filterMap TraderInput.mid? := by
      rw [List.append_assoc]
      congr 1
      cases hmid : input.mid? with
      | none => rw [List.filterMap_cons_none hmid]; rfl
      | some mid => rw [List.filterMap_cons_some hmid]; rfl
    rw [hmids]
    intro o ho
    rcases List.mem_append.mp ho with ho | ho
    · exact ⟨_, List.prefix_append _ _, hsignalled o ho⟩
    · exact ih haverages hrest o ho

private theorem averages_new (cfg : MomentumTraderConfig) (base : BaseAgent) :
    ({ base := base } : MomentumTrader).Averages cfg [] :=
  ⟨by simp, rfl, rfl⟩

section Signals

variable {o : AgentOrder}

private theorem alphas (hfast : 1 ≤ cfg.fastPeriod) (hslow : cfg.fastPeriod ≤ cfg.slowPeriod) :
    0 ≤ cfg.slowAlpha ∧ cfg.slowAlpha ≤ cfg.fastAlpha ∧ cfg.fastAlpha ≤ 1 := by
  have hone : (1 : ℚ) ≤ cfg.fastPeriod := by exact_mod_cast hfast
  have hle : (cfg.fastPeriod : ℚ) ≤ cfg.slowPeriod := by exact_mod_cast hslow
  refine ⟨?_, ?_, ?_⟩
  · exact div_nonneg (by norm_num) (by linarith)
  · exact div_le_div_of_nonneg_left (by norm_num) (by linarith) (by linarith)
  · exact (div_le_one (by linarith)).mpr (by linarith)

variable (hfast : 1 ≤ cfg.fastPeriod) (hslow : cfg.fastPeriod ≤ cfg.slowPeriod)

include hfast hslow

/-- There is no signal to sell while prices have only risen. -/
theorem Signalled.rising (h : Signalled cfg mids o) (hrising : mids.Pairwise (· ≤ ·)) :
    o.side = .bid := by
  obtain ⟨hnonneg, hweights, hone⟩ := alphas hfast hslow
  cases hside : o.side with
  | bid => rfl
  | ask =>
    rw [Signalled, hside] at h
    dsimp only at h
    rcases mids.eq_nil_or_concat' with rfl | ⟨xs, x, rfl⟩
    · simp [MovingAverage.average] at h
      linarith
    · have hcast : ((xs.map ((↑) : Int → ℚ)) ++ [(x : ℚ)]).Pairwise (· ≤ ·) := by
        rw [← List.map_singleton (f := ((↑) : Int → ℚ)), ← List.map_append]
        exact List.pairwise_map.mpr (hrising.imp fun hle => by exact_mod_cast hle)
      have hlag := (MovingAverage.average_rising hnonneg hweights hone hcast).1
      rw [List.map_append, List.map_singleton] at h
      linarith

/-- There is no signal to buy while prices have only fallen. -/
theorem Signalled.falling (h : Signalled cfg mids o) (hfalling : mids.Pairwise (· ≥ ·)) :
    o.side = .ask := by
  obtain ⟨hnonneg, hweights, hone⟩ := alphas hfast hslow
  have hcast : (mids.map ((↑) : Int → ℚ)).Pairwise (· ≥ ·) :=
    List.pairwise_map.mpr (hfalling.imp fun hle => by exact_mod_cast hle)
  have hlag := MovingAverage.average_falling hnonneg hweights hone hcast
  cases hside : o.side with
  | ask => rfl
  | bid =>
    rw [Signalled, hside] at h
    dsimp only at h
    linarith

/-- There is no signal while prices are within one tick. -/
theorem not_signalled_of_narrow {low : Int} (hrange : ∀ m ∈ mids, low ≤ m ∧ m ≤ low + 1) :
    ¬ Signalled cfg mids o := by
  obtain ⟨hnonneg, hweights, hone⟩ := alphas hfast hslow
  intro h
  have hgap : |MovingAverage.average cfg.fastAlpha (mids.map ((↑) : Int → ℚ)) -
      MovingAverage.average cfg.slowAlpha (mids.map ((↑) : Int → ℚ))| ≤ 1 := by
    rcases eq_or_ne mids [] with rfl | hne
    · simp [MovingAverage.average]
    · have hmids : mids.map ((↑) : Int → ℚ) ≠ [] := by simpa using hne
      have hcast : ∀ x ∈ mids.map ((↑) : Int → ℚ), (low : ℚ) ≤ x ∧ x ≤ low + 1 := by
        intro x hx
        obtain ⟨m, hm, rfl⟩ := List.mem_map.mp hx
        exact ⟨by exact_mod_cast (hrange m hm).1, by exact_mod_cast (hrange m hm).2⟩
      have hfastrange := MovingAverage.average_mem (hnonneg.trans hweights) hone hmids hcast
      have hslowrange := MovingAverage.average_mem hnonneg (hweights.trans hone) hmids hcast
      rw [abs_le]
      constructor <;> linarith [hfastrange.1, hfastrange.2, hslowrange.1, hslowrange.2]
  obtain ⟨hlow, hhigh⟩ := abs_le.mp hgap
  rw [Signalled] at h
  cases hside : o.side <;> rw [hside] at h <;> dsimp only at h <;> linarith

end Signals

end MomentumTrader

end LiquidityArena

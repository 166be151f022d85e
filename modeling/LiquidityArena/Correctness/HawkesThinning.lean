import LiquidityArena.Simulation.HawkesProcess
import Mathlib.Analysis.SpecialFunctions.Exp

/-!
# How far the bound of the thinning reaches

The bound leaves room for one event of the step. A second one raises the intensity beyond
it, so the bound is exceeded as soon as another candidate follows.
-/

namespace LiquidityArena

namespace HawkesProcess

variable {R : Type} [Field R] [LinearOrder R] (kernel : Kernel R)

/-- Whenever a candidate is looked at, the intensity is at most the bound, and so the acceptance
probability is at most one. -/
def Bounded (h : HawkesProcess R) (dt : R) (draws : List R) : Prop :=
  ∀ before draw after, draws = before ++ draw :: after →
    (h.step kernel dt before).2.intensity kernel ≤ (h.advance dt).lamBar kernel ∧
      (h.step kernel dt before).2.intensity kernel / (h.advance dt).lamBar kernel ≤ 1

/-- Of the draws before the last, none that is below the acceptance probability of a calm process is
followed by one below that after an event. -/
def Calm (h : HawkesProcess R) (dt : R) (draws : List R) : Prop :=
  draws.dropLast.Pairwise fun draw later =>
    ¬ (draw < acceptance ((h.advance dt).lamBar kernel) ((h.advance dt).intensity kernel) ∧
      later < acceptance ((h.advance dt).lamBar kernel) ((h.advance dt).lamBar kernel))

/-- The intensity in the middle of a step is the one before it, raised by each event since. -/
theorem intensity_candidates (lamBar : R) (draws : List R) (n : Nat) (h : HawkesProcess R) :
    (draws.foldl (candidate kernel lamBar) (n, h)).2.intensity kernel + n * h.alpha =
      h.intensity kernel + (draws.foldl (candidate kernel lamBar) (n, h)).1 * h.alpha := by
  induction draws generalizing n h with
  | nil => rfl
  | cons draw draws ih =>
    rw [List.foldl_cons, candidate_mk]
    split_ifs with haccept
    · have hrest := ih (n + 1) h.excite
      rw [intensity_excite, alpha_excite] at hrest
      push_cast at hrest
      linear_combination hrest
    · exact ih n h

/-- Further candidates take no event back. -/
theorem le_candidates (lamBar : R) (draws : List R) (s : Nat × HawkesProcess R) :
    s.1 ≤ (draws.foldl (candidate kernel lamBar) s).1 := by
  induction draws generalizing s with
  | nil => exact le_rfl
  | cons draw draws ih =>
    apply le_trans _ (ih _)
    unfold candidate
    split_ifs
    · exact Nat.le_succ _
    · exact le_rfl

variable {kernel}

/-- After one event, another one follows exactly if some draw is below the acceptance probability. -/
theorem candidates_one_iff {lamBar : R} {h : HawkesProcess R} (hlam : h.intensity kernel = lamBar)
    (draws : List R) :
    (draws.foldl (candidate kernel lamBar) (1, h)).1 ≤ 1 ↔
      ∀ later ∈ draws, ¬ later < acceptance lamBar lamBar := by
  induction draws with
  | nil => simp
  | cons draw draws ih =>
    rw [List.foldl_cons, List.forall_mem_cons, candidate_mk, hlam]
    split_ifs with haccept
    · have hmore := le_candidates kernel lamBar draws (1 + 1, h.excite)
      exact iff_of_false (by omega) fun hnone => hnone.1 haccept
    · rw [ih]
      exact ⟨fun hrest => ⟨haccept, hrest⟩, And.right⟩

/-- At most one event comes out of a list of candidates exactly if no accepted draw is followed by
another one. -/
theorem candidates_zero_iff (h : HawkesProcess R) (draws : List R) :
    (draws.foldl (candidate kernel (h.lamBar kernel)) (0, h)).1 ≤ 1 ↔
      draws.Pairwise fun draw later =>
        ¬ (draw < acceptance (h.lamBar kernel) (h.intensity kernel) ∧
          later < acceptance (h.lamBar kernel) (h.lamBar kernel)) := by
  induction draws with
  | nil => simp
  | cons draw draws ih =>
    rw [List.foldl_cons, List.pairwise_cons, candidate_mk]
    split_ifs with haccept
    · have hlam : h.excite.intensity kernel = h.lamBar kernel := intensity_excite h
      rw [candidates_one_iff hlam]
      constructor
      · intro hnone
        refine ⟨fun later hlater hboth => hnone later hlater hboth.2, ?_⟩
        exact List.pairwise_of_forall_mem_list fun _ _ later hlater hboth => hnone later hlater hboth.2
      · exact fun hpairs later hlater hbelow => hpairs.1 later hlater ⟨haccept, hbelow⟩
    · rw [ih]
      exact ⟨fun hrest => ⟨fun _ _ hboth => haccept hboth.1, hrest⟩, And.right⟩

variable [IsStrictOrderedRing R]

/-- The bound holds exactly up to the first event of the step. -/
theorem intensity_le_lamBar_iff (h : HawkesProcess R) (dt : R) (draws : List R) :
    (h.step kernel dt draws).2.intensity kernel ≤ (h.advance dt).lamBar kernel ↔
      (h.step kernel dt draws).1 ≤ 1 := by
  have hraised := intensity_candidates kernel ((h.advance dt).lamBar kernel) draws 0
    (h.advance dt)
  rw [Nat.cast_zero, zero_mul, add_zero] at hraised
  rw [step, hraised, lamBar, add_le_add_iff_left, mul_le_iff_le_one_left (h.advance dt).alpha_pos,
    Nat.cast_le_one]

/-- The bound holds at every candidate exactly if the candidates before the last leave at most one
event. -/
theorem bounded_iff_dropLast (h : HawkesProcess R) (dt : R) (draws : List R) :
    h.Bounded kernel dt draws ↔ (h.step kernel dt draws.dropLast).1 ≤ 1 := by
  constructor
  · intro hbounded
    rcases List.eq_nil_or_concat' draws with rfl | ⟨front, last, rfl⟩
    · exact Nat.zero_le 1
    · rw [List.dropLast_concat, ← intensity_le_lamBar_iff]
      exact (hbounded front last [] rfl).1
  · rintro hfew before draw after rfl
    have hbefore : (h.step kernel dt before).1 ≤ 1 := by
      rw [List.dropLast_append_of_ne_nil (List.cons_ne_nil _ _), step, List.foldl_append] at hfew
      exact (le_candidates _ _ _ _).trans hfew
    have hle := (intensity_le_lamBar_iff h dt before).mpr hbefore
    exact ⟨hle, (div_le_one (h.advance dt).lamBar_pos).mpr hle⟩

end HawkesProcess

/-- The exponential function of the reals. -/
noncomputable def Kernel.real : Kernel ℝ := ⟨Real.exp, Real.exp_pos, Real.exp_zero⟩

/-- In a step from any past, with any number of candidates and any draws, the intensity stays within
the bound at every candidate exactly if no accepted draw is followed by a second one before the
last candidate. -/
theorem thinning_bounded_iff {R : Type} [Field R] [LinearOrder R] [IsStrictOrderedRing R]
    (kernel : Kernel R) (h : HawkesProcess R) (dt : R) (draws : List R) :
    h.Bounded kernel dt draws ↔ h.Calm kernel dt draws := by
  rw [HawkesProcess.bounded_iff_dropLast]
  exact HawkesProcess.candidates_zero_iff (h.advance dt) draws.dropLast

/-- The first draw is refused and the second accepted, which the last candidate still finds within
the bound. -/
theorem thinning_bounded_iff_one_event :
    HawkesProcess.standard.Bounded Kernel.real (1 / 100) [9 / 10, 1 / 2, 1 / 2] := by
  apply (thinning_bounded_iff Kernel.real HawkesProcess.standard (1 / 100) _).mpr
  unfold HawkesProcess.Calm HawkesProcess.acceptance
  rw [HawkesProcess.intensity_standard, HawkesProcess.lamBar_standard, max_eq_left (by norm_num)]
  norm_num

/-- Two draws of three are accepted, and the last candidate finds an intensity of 11 / 5 where the
bound is 8 / 5. -/
theorem third_candidate_beyond_bound :
    (HawkesProcess.standard.advance (1 / 100)).lamBar Kernel.real = 8 / 5 ∧
      (HawkesProcess.standard.step Kernel.real (1 / 100) [1 / 2, 1 / 2]).2.intensity Kernel.real =
        11 / 5 ∧
      ¬ HawkesProcess.standard.Bounded Kernel.real (1 / 100) [1 / 2, 1 / 2, 1 / 2] := by
  have hlam := HawkesProcess.lamBar_standard Kernel.real (1 / 100)
  have haccept : ∀ lam : ℝ, HawkesProcess.acceptance (8 / 5) lam = lam / (8 / 5) := by
    intro lam
    rw [HawkesProcess.acceptance, max_eq_left (by norm_num)]
  have hfirst : (HawkesProcess.standard.advance (1 / 100)).excite.intensity Kernel.real = 8 / 5 := by
    rw [HawkesProcess.intensity_excite]
    exact hlam
  have hsecond : (HawkesProcess.standard.step Kernel.real (1 / 100) [1 / 2, 1 / 2]).2.intensity
      Kernel.real = 11 / 5 := by
    rw [HawkesProcess.step, hlam, List.foldl_cons, HawkesProcess.candidate_mk, haccept,
      HawkesProcess.intensity_standard, if_pos (by norm_num), List.foldl_cons,
      HawkesProcess.candidate_mk, haccept, hfirst, if_pos (by norm_num), List.foldl_nil,
      HawkesProcess.intensity_excite, hfirst]
    norm_num [HawkesProcess.excite, HawkesProcess.advance, HawkesProcess.standard]
  refine ⟨hlam, hsecond, fun hbounded => ?_⟩
  have hle := (hbounded [1 / 2, 1 / 2] (1 / 2) [] rfl).1
  rw [hsecond, hlam] at hle
  norm_num at hle

end LiquidityArena

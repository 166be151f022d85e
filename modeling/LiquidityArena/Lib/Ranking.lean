import Mathlib.Tactic

/-!
# The first elements of a ranking

A list of elements that can all be told apart by a ranking is sorted by it and cut off
after the first ones. What is kept is ranked strictly, and whatever is left out is ranked
behind everything that is kept.
-/

namespace Ranking

variable {α : Type*} (r : α → α → Prop) [DecidableRel r]

/-- The first `n` elements in the order of the ranking. -/
def top (n : Nat) (xs : List α) : List α := (xs.mergeSort fun x y => decide (¬ r y x)).take n

variable {r} {n : Nat} {xs : List α}

/-- The best `n` are `n`, or all of them when there are fewer. -/
theorem length_top : (top r n xs).length = min n xs.length := by
  rw [top, List.length_take, List.length_mergeSort]

/-- A cut behind the end leaves nothing out. -/
theorem mem_top_of_length_le {x : α} (hx : x ∈ xs) (hle : xs.length ≤ n) : x ∈ top r n xs := by
  rw [top, List.take_of_length_le (by rwa [List.length_mergeSort])]
  exact List.mem_mergeSort.mpr hx

variable (hasymm : ∀ x y, r x y → ¬ r y x) (hneg : ∀ x y z, ¬ r y x → ¬ r z y → ¬ r z x)
  (hdistinct : xs.Pairwise fun x y => r x y ∨ r y x)

include hasymm hneg hdistinct

/-- Elements that are told apart are sorted strictly. -/
theorem pairwise_mergeSort : (xs.mergeSort fun x y => decide (¬ r y x)).Pairwise r := by
  have hsorted : (xs.mergeSort fun x y => decide (¬ r y x)).Pairwise
      fun x y => decide (¬ r y x) = true := by
    refine List.pairwise_mergeSort (fun x y z hxy hyz => ?_) (fun x y => ?_) xs
    · exact decide_eq_true (hneg x y z (of_decide_eq_true hxy) (of_decide_eq_true hyz))
    · by_cases hxy : r x y
      · simp [hasymm x y hxy]
      · simp [hxy]
  have hapart : (xs.mergeSort fun x y => decide (¬ r y x)).Pairwise fun x y => r x y ∨ r y x :=
    (List.mergeSort_perm xs _).symm.pairwise hdistinct fun h => h.symm
  refine (hsorted.and hapart).imp fun hboth => ?_
  exact hboth.2.resolve_right (of_decide_eq_true hboth.1)

/-- The order in which the elements are listed does not matter. -/
theorem top_eq_of_perm {ys : List α} (hperm : xs.Perm ys) : top r n xs = top r n ys := by
  have hdistinct' := hperm.pairwise hdistinct fun h => h.symm
  have hsorted : xs.mergeSort (fun x y => decide (¬ r y x)) =
      ys.mergeSort fun x y => decide (¬ r y x) := by
    refine List.Perm.eq_of_pairwise (fun x y _ _ hxy hyx => absurd hyx (hasymm x y hxy))
      (pairwise_mergeSort hasymm hneg hdistinct) (pairwise_mergeSort hasymm hneg hdistinct') ?_
    exact (List.mergeSort_perm _ _).trans (hperm.trans (List.mergeSort_perm _ _).symm)
  rw [top, top, hsorted]

/-- The best `n` come in order. -/
theorem pairwise_top : (top r n xs).Pairwise r :=
  (pairwise_mergeSort hasymm hneg hdistinct).sublist (List.take_sublist _ _)

/-- What is left out ranks behind what is kept. -/
theorem mem_top_or_behind {x : α} (hx : x ∈ xs) :
    x ∈ top r n xs ∨ ∀ y ∈ top r n xs, r y x := by
  have hsorted := pairwise_mergeSort hasymm hneg hdistinct
  rw [← List.take_append_drop n (xs.mergeSort _), List.pairwise_append] at hsorted
  have hmem : x ∈ xs.mergeSort fun x y => decide (¬ r y x) := List.mem_mergeSort.mpr hx
  rw [← List.take_append_drop n (xs.mergeSort _)] at hmem
  rcases List.mem_append.mp hmem with hin | hout
  · exact Or.inl hin
  · exact Or.inr fun y hy => hsorted.2.2 y hy x hout

end Ranking

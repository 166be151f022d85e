import Mathlib.Algebra.Order.Field.Basic
import Mathlib.Tactic

/-!
# Exponential moving averages

Each new value enters with a fixed weight. An average stays within the range of its values,
and if the values rise, it lags behind, the more so the lighter the new values are.
-/

namespace MovingAverage

variable {F : Type*} [Field F]

/-- The average after a new value. -/
def update (weight avg x : F) : F := weight * x + (1 - weight) * avg

/-- The average of a first value and those that follow. -/
def average (weight : F) : List F → F
  | [] => 0
  | x :: xs => xs.foldl (update weight) x

variable {weight slow fast avg avg' x low high : F} {xs : List F}

/-- A further sample updates the average. -/
theorem average_concat (weight : F) (hxs : xs ≠ []) (x : F) :
    average weight (xs ++ [x]) = update weight (average weight xs) x := by
  cases xs with
  | nil => exact absurd rfl hxs
  | cons y ys => rw [List.cons_append, average, average, List.foldl_append, List.foldl_cons,
      List.foldl_nil]

/-- The update of negated values is the negated update. -/
theorem update_neg (weight avg x : F) : update weight (-avg) (-x) = -update weight avg x := by
  unfold update
  ring

/-- The average of negated samples is the negated average. -/
theorem average_neg (weight : F) (xs : List F) :
    average weight (xs.map (-·)) = -average weight xs := by
  induction xs using List.reverseRecOn with
  | nil => exact neg_zero.symm
  | append_singleton xs x ih =>
    rcases eq_or_ne xs [] with rfl | hxs
    · rfl
    · have hmap : xs.map (-·) ≠ [] := by simpa using hxs
      rw [List.map_append, List.map_singleton, average_concat weight hmap, ih,
        average_concat weight hxs, update_neg]

variable [LinearOrder F] [IsStrictOrderedRing F]

/-- An update of values below a bound stays below it. -/
theorem update_le (hweight : 0 ≤ weight) (hone : weight ≤ 1) (havg : avg ≤ high) (hx : x ≤ high) :
    update weight avg x ≤ high := by
  calc update weight avg x
      ≤ weight * high + (1 - weight) * high :=
        add_le_add (mul_le_mul_of_nonneg_left hx hweight)
          (mul_le_mul_of_nonneg_left havg (sub_nonneg.mpr hone))
    _ = high := by ring

/-- An update of values above a bound stays above it. -/
theorem le_update (hweight : 0 ≤ weight) (hone : weight ≤ 1) (havg : low ≤ avg) (hx : low ≤ x) :
    low ≤ update weight avg x := by
  have h := update_le hweight hone (neg_le_neg havg) (neg_le_neg hx)
  rw [update_neg] at h
  exact neg_le_neg_iff.mp h

/-- Of two averages below the new value, the greater one with the greater weight stays greater. -/
theorem update_le_update (hweights : slow ≤ fast) (hone : slow ≤ 1) (havg : avg ≤ avg')
    (hx : avg' ≤ x) : update slow avg x ≤ update fast avg' x := by
  have hlag : slow * (x - avg') ≤ fast * (x - avg') :=
    mul_le_mul_of_nonneg_right hweights (sub_nonneg.mpr hx)
  have hbehind : (1 - slow) * avg ≤ (1 - slow) * avg' :=
    mul_le_mul_of_nonneg_left havg (sub_nonneg.mpr hone)
  calc update slow avg x
      ≤ avg' + slow * (x - avg') := by unfold update; linarith
    _ ≤ avg' + fast * (x - avg') := by gcongr
    _ = update fast avg' x := by unfold update; ring

/-- An average is within the range of its values. -/
theorem average_mem (hweight : 0 ≤ weight) (hone : weight ≤ 1) (hxs : xs ≠ [])
    (hrange : ∀ x ∈ xs, low ≤ x ∧ x ≤ high) :
    low ≤ average weight xs ∧ average weight xs ≤ high := by
  induction xs using List.reverseRecOn with
  | nil => exact absurd rfl hxs
  | append_singleton xs x ih =>
    have hx := hrange x (List.mem_append_right _ List.mem_cons_self)
    rcases eq_or_ne xs [] with rfl | hne
    · exact hx
    · obtain ⟨hlow, hhigh⟩ := ih hne fun y hy => hrange y (List.mem_append_left _ hy)
      rw [average_concat weight hne]
      exact ⟨le_update hweight hone hlow hx.1, update_le hweight hone hhigh hx.2⟩

/-- Of values that rise, the average with the lighter new values lags behind the other one, and
this one behind the last value. -/
theorem average_rising (hslow : 0 ≤ slow) (hweights : slow ≤ fast) (hone : fast ≤ 1)
    (hrising : (xs ++ [x]).Pairwise (· ≤ ·)) :
    average slow (xs ++ [x]) ≤ average fast (xs ++ [x]) ∧ average fast (xs ++ [x]) ≤ x := by
  induction xs using List.reverseRecOn generalizing x with
  | nil => exact ⟨le_rfl, le_rfl⟩
  | append_singleton xs y ih =>
    obtain ⟨hbefore, -, hlast⟩ := List.pairwise_append.mp hrising
    obtain ⟨hlag, hbelow⟩ := ih hbefore
    have hyx : y ≤ x :=
      hlast y (List.mem_append_right _ List.mem_cons_self) x List.mem_cons_self
    have hne : xs ++ [y] ≠ [] := List.append_ne_nil_of_right_ne_nil _ (List.cons_ne_nil _ _)
    rw [average_concat slow hne, average_concat fast hne]
    exact ⟨update_le_update hweights (hweights.trans hone) hlag (hbelow.trans hyx),
      update_le (hslow.trans hweights) hone (hbelow.trans hyx) le_rfl⟩

/-- Of values that fall, the average with the lighter new values lags above the other one. -/
theorem average_falling (hslow : 0 ≤ slow) (hweights : slow ≤ fast) (hone : fast ≤ 1)
    (hfalling : xs.Pairwise (· ≥ ·)) : average fast xs ≤ average slow xs := by
  rcases xs.eq_nil_or_concat' with rfl | ⟨ys, y, rfl⟩
  · exact le_rfl
  · have hrising : (ys.map (-·) ++ [-y]).Pairwise (· ≤ ·) := by
      have hmap := List.pairwise_map.mpr (hfalling.imp fun h => neg_le_neg h)
      rwa [List.map_append] at hmap
    have hlag := (average_rising hslow hweights hone hrising).1
    have hneg : ys.map (-·) ++ [-y] = (ys ++ [y]).map (-·) := by
      rw [List.map_append, List.map_singleton]
    rw [hneg, average_neg, average_neg] at hlag
    exact neg_le_neg_iff.mp hlag

end MovingAverage

import Mathlib.Data.List.Forall2
import Mathlib.Tactic

/-!
# Queues that are joined at the back

Members leave a queue from anywhere and may change while they wait, but whoever joins does so
at the back. So nobody is overtaken: what stands in front of a member later stood in front of
it before.
-/

namespace Queueing

open List (SublistForall₂)

variable {α : Type*} {R : α → α → Prop} {P Q : α → Prop} {xs ys zs : List α}

/-- What may become of a queue: some stay, each as one of those related to it, and behind them
are those that have joined, which have a property. -/
def Evolves (R : α → α → Prop) (P : α → Prop) (xs ys : List α) : Prop :=
  ∃ stayed joined, ys = stayed ++ joined ∧ SublistForall₂ R stayed xs ∧ ∀ x ∈ joined, P x

/-- One side of a pointwise relation splits like the other. -/
theorem sublistForall₂_append {ys₁ ys₂ : List α} (h : SublistForall₂ R (ys₁ ++ ys₂) xs) :
    ∃ xs₁ xs₂, xs = xs₁ ++ xs₂ ∧ SublistForall₂ R ys₁ xs₁ ∧ SublistForall₂ R ys₂ xs₂ := by
  generalize hys : ys₁ ++ ys₂ = ys at h
  induction h generalizing ys₁ with
  | nil =>
    obtain ⟨rfl, rfl⟩ := List.append_eq_nil_iff.mp hys
    exact ⟨[], _, rfl, .nil, .nil⟩
  | @cons y x ys xs hyx hrest ih =>
    cases ys₁ with
    | nil =>
      rw [List.nil_append] at hys
      exact ⟨[], x :: xs, rfl, .nil, hys ▸ .cons hyx hrest⟩
    | cons y' ys₁ =>
      rw [List.cons_append] at hys
      obtain ⟨rfl, htail⟩ := List.cons.inj hys
      obtain ⟨xs₁, xs₂, rfl, h₁, h₂⟩ := ih htail
      exact ⟨x :: xs₁, xs₂, rfl, .cons hyx h₁, h₂⟩
  | @cons_right x ys xs _ ih =>
    obtain ⟨xs₁, xs₂, rfl, h₁, h₂⟩ := ih hys
    exact ⟨x :: xs₁, xs₂, rfl, .cons_right h₁, h₂⟩

/-- Parts that are related put together. -/
theorem sublistForall₂_append_append {xs₁ xs₂ ys₁ ys₂ : List α} (h₁ : SublistForall₂ R ys₁ xs₁)
    (h₂ : SublistForall₂ R ys₂ xs₂) : SublistForall₂ R (ys₁ ++ ys₂) (xs₁ ++ xs₂) := by
  induction h₁ with
  | @nil xs =>
    induction xs with
    | nil => exact h₂
    | cons x xs ih => exact .cons_right ih
  | cons hyx _ ih => exact .cons hyx ih
  | cons_right _ ih => exact .cons_right ih

/-- A member that is left stems from one that was there. -/
theorem exists_of_sublistForall₂ {y : α} (h : SublistForall₂ R ys xs) (hy : y ∈ ys) :
    ∃ x ∈ xs, R y x := by
  obtain ⟨kept, hpointwise, hsub⟩ := List.sublistForall₂_iff.mp h
  obtain ⟨n, hn, rfl⟩ := List.getElem_of_mem hy
  have hlen := hpointwise.length_eq
  exact ⟨kept[n], hsub.subset (List.getElem_mem _), hpointwise.get hn (hlen ▸ hn)⟩

namespace Evolves

/-- A queue evolves into itself. -/
theorem refl [Std.Refl R] (P : α → Prop) (xs : List α) : Evolves R P xs xs :=
  ⟨xs, [], (List.append_nil xs).symm, Std.Refl.refl xs, by simp⟩

/-- Somebody may join at the back. -/
theorem join [Std.Refl R] {x : α} (hx : P x) (xs : List α) : Evolves R P xs (xs ++ [x]) :=
  ⟨xs, [x], rfl, Std.Refl.refl xs, by simpa using hx⟩

/-- Anybody may leave. -/
theorem leave [Std.Refl R] (P : α → Prop) (h : ys.Sublist xs) : Evolves R P xs ys :=
  ⟨ys, [], (List.append_nil ys).symm, h.sublistForall₂, by simp⟩

/-- Each member changes in its place. -/
theorem map {f : α → α} (P : α → Prop) (hf : ∀ x ∈ xs, R (f x) x) :
    Evolves R P xs (xs.map f) := by
  refine ⟨xs.map f, [], (List.append_nil _).symm, ?_, by simp⟩
  induction xs with
  | nil => exact .nil
  | cons x xs ih =>
    exact .cons (hf x List.mem_cons_self) (ih fun x hx => hf x (List.mem_cons_of_mem _ hx))

/-- A weaker condition on who may join allows the same evolutions. -/
theorem mono (h : Evolves R P xs ys) (hPQ : ∀ x, P x → Q x) : Evolves R Q xs ys := by
  obtain ⟨stayed, joined, rfl, hstayed, hjoined⟩ := h
  exact ⟨stayed, joined, rfl, hstayed, fun x hx => hPQ x (hjoined x hx)⟩

/-- Those that joined first and stayed are among those that joined. -/
theorem trans [IsTrans α R] (hP : ∀ {x y}, R y x → P x → P y) (h : Evolves R P xs ys)
    (h' : Evolves R P ys zs) : Evolves R P xs zs := by
  obtain ⟨stayed, joined, rfl, hstayed, hjoined⟩ := h
  obtain ⟨kept, later, rfl, hkept, hlater⟩ := h'
  obtain ⟨parts, hpointwise, hsub⟩ := List.sublistForall₂_iff.mp hkept
  obtain ⟨l₁, l₂, rfl, hsub₁, hsub₂⟩ := List.sublist_append_iff.mp hsub
  obtain ⟨k₁, k₂, rfl, h₁, h₂⟩ : ∃ k₁ k₂, kept = k₁ ++ k₂ ∧ List.Forall₂ R k₁ l₁ ∧
      List.Forall₂ R k₂ l₂ :=
    ⟨_, _, (List.take_append_drop l₁.length kept).symm, List.forall₂_take_append _ _ _ hpointwise,
      List.forall₂_drop_append _ _ _ hpointwise⟩
  refine ⟨k₁, k₂ ++ later, List.append_assoc .., ?_, fun x hx => ?_⟩
  · have hfirst : SublistForall₂ R k₁ stayed := List.sublistForall₂_iff.mpr ⟨l₁, h₁, hsub₁⟩
    exact IsTrans.trans _ _ _ hfirst hstayed
  · rcases List.mem_append.mp hx with hx | hx
    · obtain ⟨y, hy, hxy⟩ := exists_of_sublistForall₂
        (List.sublistForall₂_iff.mpr ⟨l₂, h₂, hsub₂⟩) hx
      exact hP hxy (hjoined y hy)
    · exact hlater x hx

/-- Nobody is overtaken: in front of a member that did not join are only those that were in
front of it. -/
theorem not_overtaken {front back : List α} {y : α} (h : Evolves R P xs (front ++ y :: back))
    (hy : ¬ P y) : ∃ front' x back', xs = front' ++ x :: back' ∧ R y x ∧
      SublistForall₂ R front front' := by
  obtain ⟨stayed, joined, heq, hstayed, hjoined⟩ := h
  obtain ⟨rest, rfl⟩ : ∃ rest, stayed = front ++ y :: rest := by
    rcases List.append_eq_append_iff.mp heq with ⟨as, has, hrest⟩ | ⟨bs, -, hrest⟩
    · cases as with
      | nil =>
        rw [List.nil_append] at hrest
        exact absurd (hjoined y (hrest ▸ List.mem_cons_self)) hy
      | cons a as =>
        rw [List.cons_append] at hrest
        obtain ⟨rfl, -⟩ := List.cons.inj hrest
        exact ⟨as, has⟩
    · exact absurd (hjoined y (by simp [hrest])) hy
  obtain ⟨xs₁, xs₂, rfl, hfront, hrest⟩ := sublistForall₂_append hstayed
  generalize hys : y :: rest = ys at hrest
  -- the first of the remaining ones that is related to `y`
  induction hrest generalizing xs₁ with
  | nil => cases hys
  | @cons y' x ys xs hyx _ _ =>
    obtain ⟨rfl, -⟩ := List.cons.inj hys
    exact ⟨xs₁, x, xs, rfl, hyx, hfront⟩
  | @cons_right x ys xs hlater ih =>
    have hlonger : SublistForall₂ R (front ++ []) (xs₁ ++ [x]) :=
      sublistForall₂_append_append hfront .nil
    rw [List.append_nil] at hlonger
    have hall : SublistForall₂ R (front ++ y :: rest) ((xs₁ ++ [x]) ++ xs) := by
      rw [hys]
      exact sublistForall₂_append_append hlonger hlater
    obtain ⟨front', x', back', heq', hyx, hfront'⟩ := ih (xs₁ ++ [x]) hall hlonger hys
    exact ⟨front', x', back', by rw [← heq']; simp, hyx, hfront'⟩

end Evolves

end Queueing

import Mathlib.Order.Monotone.Defs

/-!
# Messages in flight

What a receiver will be after the messages on their way is bounded from above by what they
make of a bound on it now. A message is fine if it meets a requirement in the state it
finds, and a requirement of the bound is one of everything below it. The sender extends
the messages, the receiver takes them off one at a time, and both may lower the bound.
-/

namespace InFlight

variable {σ μ : Type*} (act : σ → μ → σ) (ok : σ → μ → Prop)

/-- The state after the messages. -/
def after (s : σ) (msgs : List μ) : σ := msgs.foldl act s

/-- Every message is fine in the state it finds. -/
def Fine : σ → List μ → Prop
  | _, [] => True
  | s, m :: msgs => ok s m ∧ Fine (act s m) msgs

variable {act ok} {s s' : σ} {msgs msgs' : List μ}

/-- Messages act one after the other. -/
theorem after_append : after act s (msgs ++ msgs') = after act (after act s msgs) msgs' :=
  List.foldl_append

/-- Messages are fine when the first part is and the second is after it. -/
theorem fine_append :
    Fine act ok s (msgs ++ msgs') ↔ Fine act ok s msgs ∧ Fine act ok (after act s msgs) msgs' := by
  induction msgs generalizing s with
  | nil => exact (and_iff_right trivial).symm
  | cons m msgs ih =>
    rw [List.cons_append, Fine, Fine, ih, and_assoc]
    rfl

section Bounded

variable [Preorder σ] (hact : ∀ m, Monotone (act · m))
include hact

/-- A lower state has a lower one after the same messages. -/
theorem after_mono (msgs : List μ) (h : s ≤ s') : after act s msgs ≤ after act s' msgs := by
  induction msgs generalizing s s' with
  | nil => exact h
  | cons m msgs ih => exact ih (hact m h)

/-- What is fine for a bound is fine for what is below it. -/
theorem Fine.anti (hok : ∀ {s s' m}, s ≤ s' → ok s' m → ok s m) (h : s ≤ s')
    (hfine : Fine act ok s' msgs) : Fine act ok s msgs := by
  induction msgs generalizing s s' with
  | nil => trivial
  | cons m msgs ih => exact ⟨hok h hfine.1, ih (hact m h) hfine.2⟩

end Bounded

end InFlight

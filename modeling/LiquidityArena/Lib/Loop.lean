import Mathlib.Logic.Relation
import Mathlib.Tactic

/-!
# Loops as partial step functions

A loop body is a function `step : α → Option α`, where `none` is an exit. A rule about
single passes holds of every pass from a state on exactly when the weakest requirement
that is computed backwards through the passes holds in that state.
-/

namespace Loop

variable {α : Type*} {step : α → Option α} {a b c : α}

/-- The states a loop passes through. -/
def Reaches (step : α → Option α) : α → α → Prop :=
  Relation.ReflTransGen fun a b => step a = some b

/-- A loop state reaches itself. -/
theorem Reaches.refl : Reaches step a a := Relation.ReflTransGen.refl

/-- A step followed by a run is a run. -/
theorem Reaches.head (h : step a = some b) (hr : Reaches step b c) : Reaches step a c :=
  Relation.ReflTransGen.head h hr

/-- What every pass preserves holds in all states the loop passes through. -/
theorem Reaches.invariant (h : Reaches step a b) (Inv : α → Prop)
    (hstep : ∀ {a b}, Inv a → step a = some b → Inv b) (ha : Inv a) : Inv b := by
  induction h with
  | refl => exact ha
  | tail _ hlast ih => exact hstep ih hlast

/-- A loop whose passes decrease a measure takes an exit. -/
theorem exists_exit (step : α → Option α) (Inv : α → Prop) (μ : α → Nat)
    (hinv : ∀ {a b}, Inv a → step a = some b → Inv b ∧ μ b < μ a) (ha : Inv a) :
    ∃ b, Reaches step a b ∧ step b = none := by
  induction hμ : μ a using Nat.strong_induction_on generalizing a with
  | _ size ih =>
    cases hs : step a with
    | none => exact ⟨a, .refl, hs⟩
    | some b =>
      obtain ⟨hb, hlt⟩ := hinv ha hs
      obtain ⟨c, hreaches, hexit⟩ := ih (μ b) (hμ ▸ hlt) hb rfl
      exact ⟨c, .head hs hreaches, hexit⟩

/-- A terminating loop obeys a rule in every pass exactly when the requirement that the
rule gives rise to, pass by pass, holds at its start. -/
theorem passes_iff (step : α → Option α) (Inv Ok : α → Prop) (Rule : α → α → Prop) (μ : α → Nat)
    (hinv : ∀ {a b}, Inv a → step a = some b → Inv b ∧ μ b < μ a)
    (hstop : ∀ {a}, Inv a → step a = none → Ok a)
    (hpass : ∀ {a b}, Inv a → step a = some b → (Ok a ↔ Rule a b ∧ Ok b)) (ha : Inv a) :
    (∀ b c, Reaches step a b → step b = some c → Rule b c) ↔ Ok a := by
  constructor
  · intro hall
    induction hμ : μ a using Nat.strong_induction_on generalizing a with
    | _ size ih =>
      cases hs : step a with
      | none => exact hstop ha hs
      | some b =>
        obtain ⟨hb, hlt⟩ := hinv ha hs
        refine (hpass ha hs).mpr ⟨hall a b .refl hs, ?_⟩
        exact ih (μ b) (hμ ▸ hlt) hb (fun c d hr => hall c d (.head hs hr)) rfl
  · intro hok b c hr hs
    have hkept := hr.invariant (fun x => Inv x ∧ Ok x)
      (fun hx hy => ⟨(hinv hx.1 hy).1, ((hpass hx.1 hy).mp hx.2).2⟩) ⟨ha, hok⟩
    exact ((hpass hkept.1 hs).mp hkept.2).1

end Loop

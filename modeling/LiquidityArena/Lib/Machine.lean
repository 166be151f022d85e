import Mathlib.Tactic

/-!
# Runs of a state machine

The step function is partial: `none` means that the action is not possible in the
state. A requirement speaks about an action and the state it finds; an invariant of
the actions that meet it holds after every run of such actions.
-/

namespace Machine

variable {σ α : Type*} {step : σ → α → Option σ} {s s' : σ} {actions : List α}

/-- The state after a sequence of actions, if all of them are possible. -/
def run (step : σ → α → Option σ) : σ → List α → Option σ
  | s, [] => some s
  | s, a :: actions => (step s a).bind (run step · actions)

/-- A run goes on with one more action. -/
theorem run_concat {a : α} {s₁ : σ} (hrun : run step s actions = some s₁)
    (hstep : step s₁ a = some s') : run step s (actions ++ [a]) = some s' := by
  induction actions generalizing s with
  | nil =>
    obtain rfl := Option.some.inj hrun
    exact Option.bind_eq_some_iff.mpr ⟨s', hstep, rfl⟩
  | cons b actions ih =>
    obtain ⟨s₂, hfirst, hrest⟩ := Option.bind_eq_some_iff.mp hrun
    exact Option.bind_eq_some_iff.mpr ⟨s₂, hfirst, ih hrest⟩

/-- The last action of a run finds the state that the others lead to. -/
theorem run_concat_inv {a : α} (hrun : run step s (actions ++ [a]) = some s') :
    ∃ s₁, run step s actions = some s₁ ∧ step s₁ a = some s' := by
  induction actions generalizing s with
  | nil =>
    obtain ⟨s₁, hstep, hdone⟩ := Option.bind_eq_some_iff.mp hrun
    exact ⟨s, rfl, hstep.trans hdone⟩
  | cons b actions ih =>
    obtain ⟨s₂, hfirst, hrest⟩ := Option.bind_eq_some_iff.mp hrun
    obtain ⟨s₁, hlater, hstep⟩ := ih hrest
    exact ⟨s₁, Option.bind_eq_some_iff.mpr ⟨s₂, hfirst, hlater⟩, hstep⟩

/-- A run in two parts. -/
theorem run_append {actions' : List α} {s₁ : σ} (h : run step s actions = some s₁)
    (h' : run step s₁ actions' = some s') : run step s (actions ++ actions') = some s' := by
  induction actions generalizing s with
  | nil =>
    obtain rfl := Option.some.inj h
    exact h'
  | cons b actions ih =>
    obtain ⟨s₂, hfirst, hrest⟩ := Option.bind_eq_some_iff.mp h
    exact Option.bind_eq_some_iff.mpr ⟨s₂, hfirst, ih hrest⟩

/-- What relates the state to the actions so far, and is kept by one more, relates the state after
every run to its actions. -/
theorem history_invariant (Inv : List α → σ → Prop) (hinit : Inv [] s)
    (hstep : ∀ {past s₁ a s'}, run step s past = some s₁ → Inv past s₁ → step s₁ a = some s' →
      Inv (past ++ [a]) s')
    (hrun : run step s actions = some s') : Inv actions s' := by
  induction actions using List.reverseRecOn generalizing s' with
  | nil =>
    obtain rfl := Option.some.inj hrun
    exact hinit
  | append_singleton actions a ih =>
    obtain ⟨s₁, hbefore, hlast⟩ := run_concat_inv hrun
    exact hstep hbefore (ih hbefore) hlast

/-- Every action meets a requirement in the state it finds. -/
def Meets (step : σ → α → Option σ) (Ok : σ → α → Prop) : σ → List α → Prop
  | _, [] => True
  | s, a :: actions => Ok s a ∧ ∀ s', step s a = some s' → Meets step Ok s' actions

instance Meets.decidable (step : σ → α → Option σ) (Ok : σ → α → Prop)
    [∀ s a, Decidable (Ok s a)] : (s : σ) → (actions : List α) → Decidable (Meets step Ok s actions)
  | _, [] => isTrue trivial
  | s, a :: actions =>
    match h : step s a with
    | none => decidable_of_iff (Ok s a) ⟨fun hok => ⟨hok, fun s' hs => by simp [h] at hs⟩, And.left⟩
    | some s₁ =>
      have := decidable step Ok s₁ actions
      decidable_of_iff (Ok s a ∧ Meets step Ok s₁ actions)
        ⟨fun hok => ⟨hok.1, fun s' hs => Option.some.inj (h.symm.trans hs) ▸ hok.2⟩,
          fun hok => ⟨hok.1, hok.2 s₁ h⟩⟩

/-- A requirement that does not look at the state is met by a run of actions that meet it. -/
theorem meets_of_forall (step : σ → α → Option σ) {P : α → Prop} (h : ∀ a ∈ actions, P a) (s : σ) :
    Meets step (fun _ => P) s actions := by
  induction actions generalizing s with
  | nil => trivial
  | cons a actions ih =>
    exact ⟨h a List.mem_cons_self, fun s' _ => ih (fun a ha => h a (List.mem_cons_of_mem _ ha)) s'⟩

/-- A run that meets two conditions meets both at once. -/
theorem Meets.and {Ok Ok' : σ → α → Prop} (h : Meets step Ok s actions)
    (h' : Meets step Ok' s actions) : Meets step (fun s a => Ok s a ∧ Ok' s a) s actions := by
  induction actions generalizing s with
  | nil => trivial
  | cons a actions ih => exact ⟨⟨h.1, h'.1⟩, fun s' hs => ih (h.2 s' hs) (h'.2 s' hs)⟩

/-- What every action that meets the requirement preserves holds after a run of such actions. -/
theorem Meets.invariant {Ok : σ → α → Prop} (h : Meets step Ok s actions) (Inv : σ → Prop)
    (hstep : ∀ {s a s'}, Inv s → Ok s a → step s a = some s' → Inv s') (hs : Inv s)
    (hrun : run step s actions = some s') : Inv s' := by
  induction actions generalizing s with
  | nil =>
    obtain rfl := Option.some.inj hrun
    exact hs
  | cons a actions ih =>
    obtain ⟨s₁, hfirst, hrest⟩ := Option.bind_eq_some_iff.mp hrun
    exact ih (h.2 s₁ hfirst) (hstep hs h.1 hfirst) hrest

/-- What every action preserves holds after every run. -/
theorem run_invariant (Inv : σ → Prop) (hstep : ∀ {s a s'}, Inv s → step s a = some s' → Inv s')
    (hs : Inv s) (hrun : run step s actions = some s') : Inv s' :=
  (meets_of_forall step (P := fun _ => True) (fun _ _ => trivial) s).invariant Inv
    (fun hs _ h => hstep hs h) hs hrun

/-- Every state a run reaches, the first included, has a property. -/
def Always (step : σ → α → Option σ) (P : σ → Prop) : σ → List α → Prop
  | s, [] => P s
  | s, a :: actions => P s ∧ ∀ s', step s a = some s' → Always step P s' actions

/-- What every action that meets the requirement preserves holds all along a run of such actions. -/
theorem Meets.always {Ok : σ → α → Prop} {P : σ → Prop} (h : Meets step Ok s actions)
    (Inv : σ → Prop) (hstep : ∀ {s a s'}, Inv s → Ok s a → step s a = some s' → Inv s')
    (hP : ∀ {s}, Inv s → P s) (hs : Inv s) : Always step P s actions := by
  induction actions generalizing s with
  | nil => exact hP hs
  | cons a actions ih =>
    exact ⟨hP hs, fun s' hs' => ih (h.2 s' hs') (hstep hs h.1 hs')⟩

/-- A property that each action keeps exactly when it meets a requirement holds all along a run
exactly when all its actions meet it. -/
theorem always_iff_meets {P : σ → Prop} {Ok Req : σ → α → Prop} (Inv : σ → Prop)
    (hstep : ∀ {s a}, Inv s → P s → Ok s a →
      ∃ s', step s a = some s' ∧ Inv s' ∧ (P s' ↔ Req s a))
    (hs : Inv s) (hp : P s) (hok : Meets step Ok s actions) :
    Always step P s actions ↔ Meets step Req s actions := by
  induction actions generalizing s with
  | nil => exact iff_of_true hp trivial
  | cons a actions ih =>
    obtain ⟨s₁, hfirst, hs₁, hiff⟩ := hstep hs hp hok.1
    have hnext : ∀ {s'}, step s a = some s' → s' = s₁ := fun hs' =>
      Option.some.inj (hs'.symm.trans hfirst)
    have hrest := fun hp₁ => ih hs₁ hp₁ (hok.2 s₁ hfirst)
    constructor
    · rintro ⟨-, hall⟩
      have hafter := hall s₁ hfirst
      have hp₁ : P s₁ := by
        cases actions with
        | nil => exact hafter
        | cons _ _ => exact hafter.1
      exact ⟨hiff.mp hp₁, fun s' hs' => hnext hs' ▸ (hrest hp₁).mp hafter⟩
    · rintro ⟨hreq, hall⟩
      have hp₁ := hiff.mpr hreq
      exact ⟨hp, fun s' hs' => hnext hs' ▸ (hrest hp₁).mpr (hall s₁ hfirst)⟩

section Outputs

variable {β : Type*} {out : σ → α → List β} {Open Open' : σ → Prop} [DecidablePred Open]
  [DecidablePred Open']

/-- What the actions of a run put out, in their order. -/
def outputs (step : σ → α → Option σ) (out : σ → α → List β) : σ → List α → List β
  | _, [] => []
  | s, a :: actions => out s a ++ (step s a).elim [] (outputs step out · actions)

/-- What the actions of a run put out once the state is open. -/
def outputsSince (step : σ → α → Option σ) (out : σ → α → List β) (Open : σ → Prop)
    [DecidablePred Open] (s : σ) (actions : List α) : List β :=
  outputs step (fun s a => if Open s then out s a else []) s actions

/-- One more action puts out its part at the end. -/
theorem outputs_concat {a : α} {s₁ : σ} (hrun : run step s actions = some s₁) :
    outputs step out s (actions ++ [a]) = outputs step out s actions ++ out s₁ a := by
  induction actions generalizing s with
  | nil =>
    obtain rfl := Option.some.inj hrun
    cases h : step s a <;> simp [outputs, h]
  | cons b actions ih =>
    obtain ⟨s₂, hfirst, hrest⟩ := Option.bind_eq_some_iff.mp hrun
    simp only [List.cons_append, outputs, hfirst, Option.elim_some, ih hrest, List.append_assoc]

/-- One more action adds its outputs when the window is open. -/
theorem outputsSince_concat {a : α} {s₁ : σ} (hrun : run step s actions = some s₁) :
    outputsSince step out Open s (actions ++ [a]) =
      outputsSince step out Open s actions ++ if Open s₁ then out s₁ a else [] :=
  outputs_concat hrun

/-- A state that is not open at the end, and stays open once it is, was never open. -/
theorem outputsSince_of_not (hstays : ∀ {s a s'}, step s a = some s' → Open s → Open s')
    (hrun : run step s actions = some s') (hclosed : ¬ Open s') :
    outputsSince step out Open s actions = [] := by
  refine history_invariant (fun past s₁ => ¬ Open s₁ → outputsSince step out Open s past = [])
    (fun _ => rfl) (fun hbefore ih hlast hno => ?_) hrun hclosed
  have hno₁ := fun hopen => hno (hstays hlast hopen)
  rw [outputsSince_concat hbefore, ih hno₁, if_neg hno₁, List.append_nil]

/-- What is put out since the state is open is the end of what is put out since it is open in a
weaker sense. -/
theorem outputsSince_suffix (hstays : ∀ {s a s'}, step s a = some s' → Open s → Open s')
    (hweaker : ∀ {s}, Open s → Open' s) (hrun : run step s actions = some s') :
    outputsSince step out Open s actions <:+ outputsSince step out Open' s actions := by
  refine history_invariant (fun past _ => outputsSince step out Open s past <:+
    outputsSince step out Open' s past) List.suffix_rfl (fun {past s₁ a _} hbefore ih _ => ?_) hrun
  rw [outputsSince_concat hbefore, outputsSince_concat hbefore]
  by_cases hopen : Open s₁
  · rw [if_pos hopen, if_pos (hweaker hopen)]
    obtain ⟨front, hfront⟩ := ih
    exact ⟨front, by rw [← List.append_assoc, hfront]⟩
  · rw [if_neg hopen, List.append_nil, outputsSince_of_not hstays hbefore hopen]
    exact List.nil_suffix

/-- What is put out since the state is open is the end of all that is put out. -/
theorem outputsSince_suffix_outputs (hstays : ∀ {s a s'}, step s a = some s' → Open s → Open s')
    (hrun : run step s actions = some s') :
    outputsSince step out Open s actions <:+ outputs step out s actions := by
  have hall : outputsSince step out (fun _ => True) s actions = outputs step out s actions := by
    simp only [outputsSince, if_true]
  rw [← hall]
  exact outputsSince_suffix hstays (fun _ => trivial) hrun

end Outputs

section Ranked

variable {P : α → Prop} {Inv : σ → Prop} {rank : σ → ℕ}

/-- Where every action of a kind lowers a rank by one, a run of such actions lowers it by its
length. -/
theorem length_add_rank (hstep : ∀ {s a s'}, Inv s → P a → step s a = some s' →
      Inv s' ∧ 1 + rank s' = rank s) (hs : Inv s) (hP : ∀ a ∈ actions, P a)
    (hrun : run step s actions = some s') : Inv s' ∧ actions.length + rank s' = rank s := by
  induction actions generalizing s with
  | nil =>
    obtain rfl := Option.some.inj hrun
    exact ⟨hs, Nat.zero_add _⟩
  | cons a actions ih =>
    obtain ⟨s₁, hfirst, hrest⟩ := Option.bind_eq_some_iff.mp hrun
    obtain ⟨hs₁, hrank⟩ := hstep hs (hP a List.mem_cons_self) hfirst
    obtain ⟨hs', hlength⟩ := ih hs₁ (fun a ha => hP a (List.mem_cons_of_mem _ ha)) hrest
    refine ⟨hs', ?_⟩
    rw [List.length_cons]
    omega

/-- If besides one of them is possible until the rank is zero, some run of them gets there. -/
theorem exists_run_to_zero (hstep : ∀ {s a s'}, Inv s → P a → step s a = some s' →
      Inv s' ∧ 1 + rank s' = rank s)
    (hnext : ∀ {s}, Inv s → 0 < rank s → ∃ a s', P a ∧ step s a = some s') (hs : Inv s) :
    ∃ actions s', (∀ a ∈ actions, P a) ∧ run step s actions = some s' ∧ Inv s' ∧ rank s' = 0 := by
  induction hn : rank s generalizing s with
  | zero => exact ⟨[], s, fun a ha => absurd ha List.not_mem_nil, rfl, hs, hn⟩
  | succ n ih =>
    obtain ⟨a, s₁, ha, hfirst⟩ := hnext hs (by omega)
    obtain ⟨hs₁, hrank⟩ := hstep hs ha hfirst
    obtain ⟨actions, s', hP, hrun, hs', hzero⟩ := ih hs₁ (by omega)
    exact ⟨a :: actions, s', List.forall_mem_cons.mpr ⟨ha, hP⟩,
      Option.bind_eq_some_iff.mpr ⟨s₁, hfirst, hrun⟩, hs', hzero⟩

end Ranked

end Machine

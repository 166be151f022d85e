import LiquidityArena.Lib.Machine
import Mathlib.Logic.Hydra

/-!
# Discrete-event loops

Pending events are popped one at a time, always one of the earliest, and handling one may
push more. Which of several earliest events is popped and what handling it draws from the
outside are left open: they make up an action. If nothing is pushed into the past, time
never runs backwards; if what is pushed is of lower rank, the loop ends.
-/

namespace EventLoop

variable {σ ε δ T : Type*} [DecidableEq ε] [LinearOrder T]

/-- The events pending, and all those ever pushed and processed, in the order in which that
happened. -/
structure State (σ ε : Type*) where
  inner : σ
  queue : List ε
  pushed : List ε
  processed : List ε

variable (time : ε → T) (handle : σ → ε → δ → σ × List ε)

/-- The loop before the first event. -/
def start (inner : σ) (events : List ε) : State σ ε := ⟨inner, events, events, []⟩

/-- Pop an earliest event and handle it, with what is drawn from the outside meanwhile. -/
def step (s : State σ ε) (a : ε × δ) : Option (State σ ε) :=
  if a.1 ∈ s.queue ∧ ∀ e ∈ s.queue, time a.1 ≤ time e then
    let (inner, new) := handle s.inner a.1 a.2
    some ⟨inner, s.queue.erase a.1 ++ new, s.pushed ++ new, s.processed ++ [a.1]⟩
  else none

/-- One way the loop can go: as long as events are pending, one of them is processed. -/
def Execution (f : Nat → State σ ε) : Prop :=
  ∀ n, (f n).queue ≠ [] → ∃ a, step time handle (f n) a = some (f (n + 1))

/-- No event is lost or processed twice. -/
def Conserved (s : State σ ε) : Prop := s.pushed.Perm (s.processed ++ s.queue)

/-- Events were processed in the order of their times, and none that is pending is earlier. -/
structure Ordered (s : State σ ε) : Prop where
  processed : (s.processed.map time).Pairwise (· ≤ ·)
  queue : ∀ e ∈ s.processed, ∀ e' ∈ s.queue, time e ≤ time e'

variable {time handle} {s s' : State σ ε} {a : ε × δ} {actions : List (ε × δ)}

/-- What an iteration does: it handles a pending event no later than any other. -/
theorem step_cases (h : step time handle s a = some s') :
    a.1 ∈ s.queue ∧ (∀ e ∈ s.queue, time a.1 ≤ time e) ∧
      s' = ⟨(handle s.inner a.1 a.2).1, s.queue.erase a.1 ++ (handle s.inner a.1 a.2).2,
        s.pushed ++ (handle s.inner a.1 a.2).2, s.processed ++ [a.1]⟩ := by
  rw [step] at h
  split_ifs at h with hmin
  exact ⟨hmin.1, hmin.2, (Option.some.inj h).symm⟩

/-- An iteration keeps every pushed event pending or processed. -/
theorem Conserved.step (h : Conserved s) (hstep : step time handle s a = some s') :
    Conserved s' := by
  obtain ⟨hmem, -, rfl⟩ := step_cases hstep
  have hpop : (s.processed ++ s.queue).Perm (s.processed ++ [a.1] ++ s.queue.erase a.1) := by
    rw [List.append_assoc, List.singleton_append]
    exact (List.perm_cons_erase hmem).append_left _
  have hall := (h.trans hpop).append_right (handle s.inner a.1 a.2).2
  rw [List.append_assoc (s.processed ++ [a.1])] at hall
  exact hall

/-- An iteration whose new events lie in the future keeps the processed ones in order. -/
theorem Ordered.step (h : Ordered time s)
    (hfuture : ∀ e' ∈ (handle s.inner a.1 a.2).2, time a.1 ≤ time e')
    (hstep : step time handle s a = some s') : Ordered time s' := by
  obtain ⟨hmem, hmin, rfl⟩ := step_cases hstep
  have hlate : ∀ e' ∈ s.queue.erase a.1 ++ (handle s.inner a.1 a.2).2, time a.1 ≤ time e' := by
    intro e' he'
    rcases List.mem_append.mp he' with he' | he'
    · exact hmin e' (List.mem_of_mem_erase he')
    · exact hfuture e' he'
  refine ⟨?_, fun e he e' he' => ?_⟩
  · rw [List.map_append, List.pairwise_append]
    refine ⟨h.processed, List.pairwise_singleton _ _, fun t ht t' ht' => ?_⟩
    obtain ⟨e, he, rfl⟩ := List.mem_map.mp ht
    rw [List.mem_singleton.mp ht']
    exact h.queue e he a.1 hmem
  · rcases List.mem_append.mp he with he | he
    · exact (h.queue e he a.1 hmem).trans (hlate e' he')
    · rw [List.mem_singleton.mp he]
      exact hlate e' he'

/-- What every event keeps of the inner state is kept along every run. -/
theorem inner_invariant (P : σ → Prop) (hhandle : ∀ x e d, P x → P (handle x e d).1) {inner : σ}
    (hinner : P inner) (events : List ε)
    (hrun : Machine.run (step time handle) (start inner events) actions = some s) : P s.inner := by
  refine Machine.run_invariant (fun s => P s.inner) (fun {s a s'} h hstep => ?_) hinner hrun
  obtain ⟨-, -, rfl⟩ := step_cases hstep
  exact hhandle s.inner a.1 a.2 h

/-- Along every run no event is lost or processed twice. -/
theorem conserved (inner : σ) (events : List ε)
    (hrun : Machine.run (step time handle) (start inner events) actions = some s) :
    Conserved s := by
  have hstart : Conserved (start inner events) := List.Perm.refl events
  exact Machine.run_invariant Conserved Conserved.step hstart hrun

/-- Time does not run backwards if nothing is pushed into the past. -/
theorem ordered (hfuture : ∀ x e d, ∀ e' ∈ (handle x e d).2, time e ≤ time e') (inner : σ)
    (events : List ε)
    (hrun : Machine.run (step time handle) (start inner events) actions = some s) :
    Ordered time s :=
  Machine.run_invariant (Ordered time) (fun h => h.step (hfuture _ _ _))
    ⟨List.Pairwise.nil, by simp [start]⟩ hrun

/-- A log of the inner state to which every event adds at most its own time is in order, if nothing
is pushed into the past. -/
theorem log_sorted (log : σ → List T)
    (hlog : ∀ x e d, ∃ new, (log (handle x e d).1).Sublist (log x ++ new) ∧ ∀ t ∈ new, t = time e)
    (hfuture : ∀ x e d, ∀ e' ∈ (handle x e d).2, time e ≤ time e') {inner : σ}
    (hinner : log inner = []) (events : List ε)
    (hrun : Machine.run (step time handle) (start inner events) actions = some s) :
    (log s.inner).Pairwise (· ≤ ·) := by
  have hinv := Machine.run_invariant
    (fun s : State σ ε => (log s.inner).Pairwise (· ≤ ·) ∧
      ∀ t ∈ log s.inner, ∀ e ∈ s.queue, t ≤ time e)
    (fun {s a s'} h hstep => ?_) ⟨by simp [start, hinner], by simp [start, hinner]⟩ hrun
  · exact hinv.1
  obtain ⟨hmem, hmin, rfl⟩ := step_cases hstep
  obtain ⟨new, hsub, hnew⟩ := hlog s.inner a.1 a.2
  have hall : ∀ t ∈ log s.inner ++ new, t ≤ time a.1 := by
    intro t ht
    rcases List.mem_append.mp ht with ht | ht
    · exact h.2 t ht a.1 hmem
    · exact (hnew t ht).le
  refine ⟨List.Pairwise.sublist hsub (List.pairwise_append.mpr ⟨h.1, ?_, fun t ht t' ht' => ?_⟩),
    fun t ht e he => ?_⟩
  · exact List.pairwise_of_forall_mem_list fun t ht t' ht' =>
      ((hnew t ht).trans (hnew t' ht').symm).le
  · rw [hnew t' ht']
    exact h.2 t ht a.1 hmem
  · have hlate : time a.1 ≤ time e := by
      rcases List.mem_append.mp he with he | he
      · exact hmin e (List.mem_of_mem_erase he)
      · exact hfuture s.inner a.1 a.2 e he
    exact (hall t (hsub.subset ht)).trans hlate

/-- When an event is popped, the earlier ones of a kind have been processed, and no others. -/
theorem countP_processed (hconserved : Conserved s) (hordered : Ordered time s)
    (hstep : step time handle s a = some s') (p : ε → Bool)
    (hp : ∀ e ∈ s.pushed, p e → time e ≠ time a.1) :
    s.processed.countP p = s.pushed.countP fun e => p e ∧ time e < time a.1 := by
  obtain ⟨hmem, hmin, -⟩ := step_cases hstep
  have hqueue : (s.queue.countP fun e => p e ∧ time e < time a.1) = 0 := by
    rw [List.countP_eq_zero]
    intro e he
    simp [(hmin e he).not_gt]
  rw [hconserved.countP_eq, List.countP_append, hqueue, Nat.add_zero]
  refine List.countP_congr fun e he => ?_
  have hpushed : e ∈ s.pushed := hconserved.mem_iff.mpr (List.mem_append_left _ he)
  have hle := hordered.queue e he a.1 hmem
  rw [decide_eq_true_iff]
  exact ⟨fun hpe => ⟨hpe, lt_of_le_of_ne hle (hp e hpushed hpe)⟩, And.left⟩

/-- When an event is popped, the later ones are pending. -/
theorem mem_queue_of_later (hconserved : Conserved s) (hordered : Ordered time s)
    (hstep : step time handle s a = some s') {e : ε} (he : e ∈ s.pushed)
    (hlater : time a.1 < time e) : e ∈ s.queue := by
  obtain ⟨hmem, -, -⟩ := step_cases hstep
  refine (List.mem_append.mp (hconserved.mem_iff.mp he)).resolve_left fun hprocessed => ?_
  exact absurd (hordered.queue e hprocessed a.1 hmem) hlater.not_ge

/-- While events are pending, one can be popped, whatever is drawn from the outside. -/
theorem progress (hqueue : s.queue ≠ []) (d : δ) :
    ∃ e s', step time handle s (e, d) = some s' := by
  obtain ⟨e, he, hmin⟩ := s.queue.toFinset.exists_min_image time
    (List.toFinset_nonempty_iff _ |>.mpr hqueue)
  simp only [List.mem_toFinset] at he hmin
  exact ⟨e, _, if_pos ⟨he, hmin⟩⟩

/-- An event is replaced by finitely many of lower rank, so the queue descends. -/
theorem step_cutExpand (rank : ε → Nat)
    (hrank : ∀ x e d, ∀ e' ∈ (handle x e d).2, rank e' < rank e)
    (hstep : step time handle s a = some s') :
    Relation.CutExpand (InvImage (· < ·) rank) (s'.queue : Multiset ε) s.queue := by
  obtain ⟨hmem, -, rfl⟩ := step_cases hstep
  refine ⟨((handle s.inner a.1 a.2).2 : Multiset ε), a.1, fun e' he' => ?_, ?_⟩
  · exact hrank s.inner a.1 a.2 e' (Multiset.mem_coe.mp he')
  · have hpop : (s.queue : Multiset ε) = {a.1} + (s.queue.erase a.1 : Multiset ε) := by
      rw [Multiset.singleton_add, Multiset.cons_coe, Multiset.coe_eq_coe]
      exact List.perm_cons_erase hmem
    rw [hpop, ← Multiset.coe_add]
    abel

/-- What an execution goes through before the queue is empty is a run. -/
theorem Execution.run {f : Nat → State σ ε} (hf : Execution time handle f) :
    ∀ n, (∀ k < n, (f k).queue ≠ []) →
      ∃ actions, Machine.run (step time handle) (f 0) actions = some (f n)
  | 0, _ => ⟨[], rfl⟩
  | n + 1, hbusy => by
    obtain ⟨actions, hrun⟩ := hf.run n fun k hk => hbusy k (hk.trans (Nat.lt_succ_self n))
    obtain ⟨a, hstep⟩ := hf n (hbusy n (Nat.lt_succ_self n))
    exact ⟨actions ++ [a], Machine.run_concat hrun hstep⟩

/-- The loop ends if every event pushed is of lower rank than the one that is handled. -/
theorem ends (rank : ε → Nat) (hrank : ∀ x e d, ∀ e' ∈ (handle x e d).2, rank e' < rank e)
    {f : Nat → State σ ε} (hf : Execution time handle f) : ∃ n actions,
      Machine.run (step time handle) (f 0) actions = some (f n) ∧ (f n).queue = [] := by
  have hends : ∃ n, (f n).queue = [] := by
    by_contra hnever
    rw [not_exists] at hnever
    have hwf : WellFounded (Relation.CutExpand (InvImage (· < ·) rank)) :=
      (InvImage.wf rank Nat.lt_wfRel.wf).cutExpand
    have hdescends : ∀ n, Relation.CutExpand (InvImage (· < ·) rank)
        ((f (n + 1)).queue : Multiset ε) (f n).queue := by
      intro n
      obtain ⟨a, hstep⟩ := hf n (hnever n)
      exact step_cutExpand rank hrank hstep
    exact (wellFounded_iff_isEmpty_descending_chain.mp hwf).false
      ⟨fun n => ((f n).queue : Multiset ε), hdescends⟩
  classical
  obtain ⟨actions, hrun⟩ := hf.run (Nat.find hends) fun k hk => Nat.find_min hends hk
  exact ⟨Nat.find hends, actions, hrun, Nat.find_spec hends⟩

end EventLoop

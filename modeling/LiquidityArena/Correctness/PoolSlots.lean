import LiquidityArena.Lib.Machine
import LiquidityArena.Engine.ObjectPool

/-!
# The pool hands out every free slot once

The owner of a pool takes objects, writes to those it holds, and gives them back in any
order. The slots it holds are recorded beside the pool; the pool itself knows them only as
the slots that its free list does not visit.
-/

namespace LiquidityArena

/-- What the owner of a pool does. -/
inductive PoolAction (T : Type) where
  | allocate
  | write (p : Ptr) (obj : T)
  | deallocate (p : Ptr)

/-- A pool and the slots of the objects that are live. -/
structure PoolRun (T : Type) (capacity : Nat) where
  pool : ObjectPool T capacity := .init
  live : List Ptr := []

namespace PoolRun

variable {T : Type} [Inhabited T] {capacity : Nat} {s s' : PoolRun T capacity} {a : PoolAction T}

/-- One call or one assignment through a pointer. -/
def step (s : PoolRun T capacity) : PoolAction T → Option (PoolRun T capacity)
  | .allocate => some ⟨s.pool.allocate.2, s.live ++ s.pool.allocate.1.toList⟩
  | .write p obj => some ⟨s.pool.set p obj, s.live⟩
  | .deallocate p => some ⟨s.pool.deallocate p, s.live.erase p⟩

/-- Only live objects are written to and given back. -/
def Admits (s : PoolRun T capacity) : PoolAction T → Prop
  | .allocate => True
  | .write p _ => p ∈ s.live
  | .deallocate p => p ∈ s.live

instance (s : PoolRun T capacity) (a : PoolAction T) : Decidable (s.Admits a) :=
  match a with
  | .allocate => inferInstanceAs (Decidable True)
  | .write p _ => inferInstanceAs (Decidable (p ∈ s.live))
  | .deallocate p => inferInstanceAs (Decidable (p ∈ s.live))

/-- No slot is handed out twice and none is lost. -/
structure Exact (s : PoolRun T capacity) : Prop where
  /-- The live slots are slots of the pool, each counted once. -/
  live : s.live.Nodup ∧ ∀ p ∈ s.live, p < capacity
  /-- The free list ends, and visits exactly the slots that are not live, each one once. -/
  free : ∃ free, Linked.Chain s.pool.link s.pool.head free ∧ free.Nodup ∧
    ∀ p, p ∈ free ↔ p < capacity ∧ p ∉ s.live
  count : s.pool.allocatedCount = s.live.length
  /-- Only a pool without a free slot refuses. -/
  refused : s.pool.allocate.1 = none ↔ s.live.length = capacity
  /-- What is handed out is a fresh object in a slot that is not live. -/
  fresh : ∀ p, s.pool.allocate.1 = some p →
    p < capacity ∧ p ∉ s.live ∧ s.pool.allocate.2.storage p = .storage default

/-- The live slots of the pool are the recorded ones. -/
theorem exact_of_live (h : s.pool.Live s.live) : s.Exact := by
  obtain ⟨free, hchain, hperm⟩ := h.free
  have hnodup : (s.live ++ free).Nodup := hperm.nodup_iff.mpr List.nodup_range
  obtain ⟨hlive, hfree, hdisj⟩ := List.nodup_append.mp hnodup
  have hmem : ∀ p, p ∈ s.live ∨ p ∈ free ↔ p < capacity := fun p => by
    rw [← List.mem_append, hperm.mem_iff, List.mem_range]
  have hslots : ∀ p, p ∈ free ↔ p < capacity ∧ p ∉ s.live := by
    intro p
    rw [← hmem]
    constructor
    · exact fun hp => ⟨Or.inr hp, fun hp' => hdisj p hp' p hp rfl⟩
    · rintro ⟨hp, hnot⟩
      exact hp.resolve_left hnot
  refine ⟨⟨hlive, fun p hp => (hmem p).mp (Or.inl hp)⟩, ⟨free, hchain, hfree, hslots⟩, h.count, ?_, ?_⟩
  · rw [← h.head_eq_none_iff, ObjectPool.allocate]
    cases s.pool.head <;> simp
  · intro p hp
    have hhead : s.pool.head = some p := by
      rw [ObjectPool.allocate] at hp
      cases hh : s.pool.head with
      | none => simp [hh] at hp
      | some q => simpa [hh] using hp
    have hfirst : p ∈ free := by
      cases free with
      | nil => exact absurd (hhead.symm.trans hchain) (by simp)
      | cons q rest =>
        obtain rfl := Option.some.inj (hhead.symm.trans hchain.1)
        exact List.mem_cons_self
    refine ⟨((hslots p).mp hfirst).1, ((hslots p).mp hfirst).2, ?_⟩
    simp [ObjectPool.allocate, hhead, ObjectPool.set]

/-- One action keeps the live slots in step with the pool. -/
theorem live_step (h : s.pool.Live s.live) (ha : s.Admits a) (hs : s.step a = some s') :
    s'.pool.Live s'.live := by
  cases a with
  | allocate =>
    obtain rfl := Option.some.inj hs
    by_cases hfull : s.live.length = capacity
    · simp only [h.allocate_full hfull, Option.toList_none, List.append_nil]
      exact h
    · obtain ⟨p, pool', halloc, -, hlive, -⟩ := h.allocate (lt_of_le_of_ne h.length_le hfull)
      rw [halloc]
      exact hlive
  | write p obj =>
    obtain rfl := Option.some.inj hs
    exact h.set ha obj
  | deallocate p =>
    obtain rfl := Option.some.inj hs
    exact h.deallocate ha

end PoolRun

/-- Along every sequence of calls that give back live objects only, in every state, the free list
visits exactly the slots that are not live, the counter is exact, and an allocation fails exactly
when all slots are live and otherwise hands out a fresh object in one that is not. -/
theorem pool_run_exact {T : Type} [Inhabited T] {capacity : Nat} (hcapacity : 0 < capacity)
    (actions : List (PoolAction T))
    (hactions : Machine.Meets PoolRun.step PoolRun.Admits ({} : PoolRun T capacity) actions) :
    Machine.Always PoolRun.step PoolRun.Exact ({} : PoolRun T capacity) actions :=
  hactions.always (fun s => s.pool.Live s.live) PoolRun.live_step PoolRun.exact_of_live
    (ObjectPool.live_init hcapacity)

/-- Two slots: both are taken, a third object is refused, and the first slot is used again. -/
theorem pool_run_exact_two_slots :
    Machine.Always PoolRun.step PoolRun.Exact ({} : PoolRun Order 2)
      [.allocate, .allocate, .allocate, .write 0 { id := 7 }, .deallocate 0, .allocate] :=
  pool_run_exact (by decide) _ (by decide +kernel)

end LiquidityArena

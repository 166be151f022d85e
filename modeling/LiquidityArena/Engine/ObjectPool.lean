import LiquidityArena.Lib.Linked
import Mathlib.Data.List.Nodup
import Mathlib.Data.List.Range
import LiquidityArena.Engine.Types

/-!
# The object pool

Every slot of the pool either stores a live object or, while it is free, the
link to the next free slot. `Live pool ps` says that `ps` lists the live slots:
the free list reached from the head runs through exactly the other slots, each
of them once.
-/

namespace LiquidityArena

/-- A slot: either a live object or a free-list node in the same storage. -/
inductive FreeNode (T : Type) where
  | storage (obj : T)
  | nextFree (next : Option Ptr)

/-- Preallocated slots, the head of their free list and the number handed out. -/
structure ObjectPool (T : Type) (capacity : Nat) where
  storage : Ptr → FreeNode T
  head : Option Ptr
  allocatedCount : Nat

namespace ObjectPool

variable {T : Type} {capacity : Nat}

/-- The constructor: each slot links to the subsequent one. -/
def init : ObjectPool T capacity where
  storage i := .nextFree (if i + 1 < capacity then some (i + 1) else none)
  head := some 0
  allocatedCount := 0

/-- The free-list link stored in a slot, if the slot is free. -/
def link (pool : ObjectPool T capacity) (p : Ptr) : Option (Option Ptr) :=
  match pool.storage p with
  | .storage _ => none
  | .nextFree next => some next

/-- Overwrite the object in a slot. -/
def set (pool : ObjectPool T capacity) (p : Ptr) (obj : T) : ObjectPool T capacity :=
  { pool with storage := Function.update pool.storage p (.storage obj) }

/-- Pop the free list and construct a fresh object in the slot. -/
def allocate [Inhabited T] (pool : ObjectPool T capacity) :
    Option Ptr × ObjectPool T capacity :=
  match pool.head with
  | none => (none, pool)
  | some p =>
    (some p,
      { (pool.set p default) with
        head := (pool.link p).join
        allocatedCount := pool.allocatedCount + 1 })

/-- Push a slot onto the free list. -/
def deallocate (pool : ObjectPool T capacity) (p : Ptr) : ObjectPool T capacity where
  storage := Function.update pool.storage p (.nextFree pool.head)
  head := some p
  allocatedCount := pool.allocatedCount - 1

/-- The number of slots not handed out. -/
def available (pool : ObjectPool T capacity) : Nat := capacity - pool.allocatedCount

section Access

variable [Inhabited T]

/-- Dereference a pointer into the pool. -/
def get (pool : ObjectPool T capacity) (p : Ptr) : T :=
  match pool.storage p with
  | .storage obj => obj
  | .nextFree _ => default

/-- Assign through a pointer into the pool. -/
def modify (pool : ObjectPool T capacity) (p : Ptr) (f : T → T) : ObjectPool T capacity :=
  pool.set p (f (pool.get p))

/-- Assign through a pointer unless it is null. -/
def modifyIf (pool : ObjectPool T capacity) (q : Option Ptr) (f : T → T) :
    ObjectPool T capacity :=
  match q with
  | some p => pool.modify p f
  | none => pool

@[simp] theorem get_set_self (pool : ObjectPool T capacity) (p : Ptr) (obj : T) :
    (pool.set p obj).get p = obj := by
  simp [get, set]

/-- Writing one slot leaves the others as they were. -/
theorem get_set_of_ne (pool : ObjectPool T capacity) {p q : Ptr} (obj : T) (h : q ≠ p) :
    (pool.set p obj).get q = pool.get q := by
  simp [get, set, Function.update_of_ne h]

/-- Assignment changes exactly the slot it names. -/
theorem get_set (pool : ObjectPool T capacity) (p q : Ptr) (obj : T) :
    (pool.set p obj).get q = if q = p then obj else pool.get q := by
  by_cases h : q = p
  · subst h
    simp
  · simp [h, get_set_of_ne]

/-- A modified slot holds the image of what it held. -/
theorem get_modify (pool : ObjectPool T capacity) (p q : Ptr) (f : T → T) :
    (pool.modify p f).get q = if q = p then f (pool.get p) else pool.get q :=
  get_set ..

@[simp] theorem get_modify_self (pool : ObjectPool T capacity) (p : Ptr) (f : T → T) :
    (pool.modify p f).get p = f (pool.get p) := by
  simp [get_modify]

/-- Modifying one slot leaves the others as they were. -/
theorem get_modify_of_ne (pool : ObjectPool T capacity) {p q : Ptr} (f : T → T) (h : q ≠ p) :
    (pool.modify p f).get q = pool.get q := by
  simp [get_modify, h]

/-- An optional modification touches at most the slot it names. -/
theorem get_modifyIf (pool : ObjectPool T capacity) (q : Option Ptr) (x : Ptr) (f : T → T) :
    (pool.modifyIf q f).get x = if q = some x then f (pool.get x) else pool.get x := by
  cases q with
  | none => simp [modifyIf]
  | some p =>
    by_cases h : x = p
    · simp [modifyIf, h]
    · simp [modifyIf, get_modify, h, Ne.symm h]

/-- Freeing one slot leaves the others as they were. -/
theorem get_deallocate_of_ne (pool : ObjectPool T capacity) {p q : Ptr} (h : q ≠ p) :
    (pool.deallocate p).get q = pool.get q := by
  simp [get, deallocate, Function.update_of_ne h]

end Access

/-- `live` lists the slots in use, and the free list runs through all the others. -/
structure Live (pool : ObjectPool T capacity) (live : List Ptr) : Prop where
  /-- Live and free slots together are all the slots, each one once. -/
  free : ∃ free, Linked.Chain pool.link pool.head free ∧
    (live ++ free).Perm (List.range capacity)
  /-- A live slot stores an object. -/
  stored : ∀ p ∈ live, ∃ obj, pool.storage p = .storage obj
  /-- The diagnostic counter is exact. -/
  count : pool.allocatedCount = live.length

/-- The initial free list visits the slots in storage order. -/
theorem chain_init_from (start : Nat) (h : start < capacity) :
    Linked.Chain (init : ObjectPool T capacity).link (some start)
      (List.range' start (capacity - start)) := by
  obtain ⟨k, hk⟩ : ∃ k, capacity - start = k + 1 := ⟨capacity - start - 1, by omega⟩
  rw [hk, List.range'_succ]
  refine ⟨rfl, _, rfl, ?_⟩
  by_cases hs : start + 1 < capacity
  · rw [show k = capacity - (start + 1) by omega, if_pos hs]
    exact chain_init_from (start + 1) hs
  · rw [show k = 0 by omega, if_neg hs]
    rfl
termination_by capacity - start

/-- A fresh pool has no live slot. -/
theorem live_init (h : 0 < capacity) : (init : ObjectPool T capacity).Live [] where
  free := by
    refine ⟨_, chain_init_from 0 h, ?_⟩
    rw [List.nil_append, Nat.sub_zero, ← List.range_eq_range']
  stored := by simp
  count := rfl

variable {pool : ObjectPool T capacity} {live : List Ptr}

/-- No live slot is listed twice. -/
theorem Live.nodup (h : pool.Live live) : live.Nodup := by
  obtain ⟨free, -, hperm⟩ := h.free
  exact (List.nodup_append.mp (hperm.nodup_iff.mpr List.nodup_range)).1

/-- No more slots are live than the pool has. -/
theorem Live.length_le (h : pool.Live live) : live.length ≤ capacity := by
  obtain ⟨free, -, hperm⟩ := h.free
  have := hperm.length_eq
  simp only [List.length_append, List.length_range] at this
  omega

/-- Exhaustion is exactly that every slot is live. -/
theorem Live.head_eq_none_iff (h : pool.Live live) :
    pool.head = none ↔ live.length = capacity := by
  obtain ⟨free, hchain, hperm⟩ := h.free
  have hlen := hperm.length_eq
  simp only [List.length_append, List.length_range] at hlen
  cases free with
  | nil => simp_all [Linked.Chain]
  | cons p rest =>
    simp only [Linked.chain_cons] at hchain
    simp only [List.length_cons] at hlen
    simp only [hchain.1, reduceCtorEq, false_iff]
    omega

/-- Writing through a pointer to a live slot leaves the free list alone. -/
theorem Live.set (h : pool.Live live) {p : Ptr} (hp : p ∈ live) (obj : T) :
    (pool.set p obj).Live live where
  free := by
    obtain ⟨free, hchain, hperm⟩ := h.free
    refine ⟨free, hchain.congr fun q hq => ?_, hperm⟩
    have hne : q ≠ p := by
      rintro rfl
      exact (List.nodup_append.mp (hperm.nodup_iff.mpr List.nodup_range)).2.2 q hp q hq rfl
    simp [link, ObjectPool.set, Function.update_of_ne hne]
  stored q hq := by
    by_cases hqp : q = p
    · subst hqp
      exact ⟨obj, by simp [ObjectPool.set]⟩
    · obtain ⟨o, ho⟩ := h.stored q hq
      exact ⟨o, by simp [ObjectPool.set, Function.update_of_ne hqp, ho]⟩
  count := h.count

/-- Modifying a live slot keeps the live slots. -/
theorem Live.modify [Inhabited T] (h : pool.Live live) {p : Ptr} (hp : p ∈ live) (f : T → T) :
    (pool.modify p f).Live live := h.set hp _

/-- Modifying a live slot, if any, keeps the live slots. -/
theorem Live.modifyIf [Inhabited T] (h : pool.Live live) {q : Option Ptr}
    (hq : ∀ p, q = some p → p ∈ live) (f : T → T) : (pool.modifyIf q f).Live live := by
  cases q with
  | none => exact h
  | some p => exact h.modify (hq p rfl) f

/-- An allocation that succeeds returns a slot that was not live, default-initialised. -/
theorem Live.allocate [Inhabited T] (h : pool.Live live) (hroom : live.length < capacity) :
    ∃ p pool', pool.allocate = (some p, pool') ∧ p ∉ live ∧ pool'.Live (live ++ [p]) ∧
      ∀ q, pool'.get q = if q = p then default else pool.get q := by
  obtain ⟨free, hchain, hperm⟩ := h.free
  have hlen := hperm.length_eq
  simp only [List.length_append, List.length_range] at hlen
  cases free with
  | nil => simp at hlen; omega
  | cons p rest =>
    obtain ⟨hhead, after, hlink, hrest⟩ := hchain
    have hnodup : (live ++ p :: rest).Nodup := hperm.nodup_iff.mpr List.nodup_range
    obtain ⟨-, hcons, hdisj⟩ := List.nodup_append.mp hnodup
    have hp : p ∉ live := fun hp => hdisj p hp p (by simp) rfl
    refine ⟨p, pool.allocate.2, ?_, hp, ?_, ?_⟩ <;> simp only [ObjectPool.allocate, hhead]
    · refine ⟨⟨rest, ?_, by simpa using hperm⟩, ?_, by simp [h.count]⟩
      · simp only [hlink, Option.join_some]
        refine hrest.congr fun q hq => ?_
        have hne : q ≠ p := fun e => (List.nodup_cons.mp hcons).1 (e ▸ hq)
        simp [link, ObjectPool.set, Function.update_of_ne hne]
      · intro q hq
        by_cases hqp : q = p
        · exact ⟨default, by simp [ObjectPool.set, hqp]⟩
        · obtain ⟨o, ho⟩ := h.stored q (by simpa [hqp] using hq)
          exact ⟨o, by simp [ObjectPool.set, Function.update_of_ne hqp, ho]⟩
    · exact fun q => get_set pool p q default

/-- A full pool refuses the allocation and stays as it is. -/
theorem Live.allocate_full [Inhabited T] (h : pool.Live live) (hfull : live.length = capacity) :
    pool.allocate = (none, pool) := by
  simp [ObjectPool.allocate, h.head_eq_none_iff.mpr hfull]

/-- Returning a live slot removes exactly that slot from the live ones. -/
theorem Live.deallocate (h : pool.Live live) {p : Ptr} (hp : p ∈ live) :
    (pool.deallocate p).Live (live.erase p) where
  free := by
    obtain ⟨free, hchain, hperm⟩ := h.free
    have hnodup : (live ++ free).Nodup := hperm.nodup_iff.mpr List.nodup_range
    refine ⟨p :: free, ⟨rfl, pool.head, by simp [link, ObjectPool.deallocate], ?_⟩, ?_⟩
    · refine hchain.congr fun q hq => ?_
      have hne : q ≠ p := by
        rintro rfl
        exact (List.nodup_append.mp hnodup).2.2 q hp q hq rfl
      simp [link, ObjectPool.deallocate, Function.update_of_ne hne]
    · refine List.Perm.trans ?_ hperm
      refine List.perm_middle.trans ?_
      rw [← List.cons_append]
      exact (List.perm_cons_erase hp).symm.append_right free
  stored q hq := by
    have hne : q ≠ p := fun e => h.nodup.not_mem_erase (e ▸ hq)
    obtain ⟨o, ho⟩ := h.stored q (List.mem_of_mem_erase hq)
    exact ⟨o, by simp [ObjectPool.deallocate, Function.update_of_ne hne, ho]⟩
  count := by
    simp [ObjectPool.deallocate, h.count, List.length_erase_of_mem hp]

end ObjectPool

end LiquidityArena

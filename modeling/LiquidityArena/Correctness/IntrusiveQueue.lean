import LiquidityArena.Lib.Machine
import LiquidityArena.Engine.PriceLevel

/-!
# Price levels over a shared heap behave as plain lists

Several levels link the orders of one heap. Beside them runs a plain list for each level,
on which the operations append, delete and pop. The links always describe these lists;
the cached depth is the sum over the list as far as 32 bits hold it.
-/

namespace LiquidityArena

/-- The operations of a level, with a fill of one of its orders. -/
inductive QueueOp where
  | pushBack (p : Ptr)
  | remove (p : Ptr)
  | popFront
  | fill (p : Ptr) (q : Int)
  | modifyQtyDown (p : Ptr) (newQty : Int)
  deriving DecidableEq, Repr

namespace QueueOp

variable {capacity : Nat}

/-- The operation on a level. A fill is written to the order before the level learns of it. -/
def apply (op : QueueOp) (level : PriceLevel) (heap : ObjectPool Order capacity) :
    PriceLevel × ObjectPool Order capacity :=
  match op with
  | .pushBack p => level.pushBack heap p
  | .remove p => level.remove heap p
  | .popFront => (level.popFront heap).2
  | .fill p q => (level.reduceQuantity q, heap.modify p (·.fill q))
  | .modifyQtyDown p newQty => level.modifyQtyDown heap p newQty

/-- The operation on a plain list. -/
def onList : QueueOp → List Ptr → List Ptr
  | .pushBack p, ps => ps ++ [p]
  | .remove p, ps => ps.erase p
  | .popFront, ps => ps.tail
  | .fill _ _, ps => ps
  | .modifyQtyDown _ _, ps => ps

/-- What remains of all orders of a list. -/
def volume (heap : ObjectPool Order capacity) (ps : List Ptr) : Int :=
  (ps.map fun p => (heap.get p).remaining).sum

/-- By how much the operation changes what remains of the orders of a list. -/
def delta (op : QueueOp) (heap : ObjectPool Order capacity) (ps : List Ptr) : Int :=
  match op with
  | .pushBack p => (heap.get p).remaining
  | .remove p => -(heap.get p).remaining
  | .popFront => -volume heap (ps.take 1)
  | .fill _ q => -q
  | .modifyQtyDown p newQty => newQty - (heap.get p).remaining

/-- The operation is about an order of the list, or about one that is not; executions and reductions
are as the assertions ask. -/
def AdmitsAt (op : QueueOp) (heap : ObjectPool Order capacity) (ps : List Ptr) : Prop :=
  match op with
  | .pushBack p => p ∉ ps
  | .remove p => p ∈ ps
  | .popFront => True
  | .fill p q => p ∈ ps ∧ 0 < q ∧ q ≤ (heap.get p).remaining
  | .modifyQtyDown p newQty => p ∈ ps ∧ 0 < newQty ∧ newQty < (heap.get p).remaining

instance (op : QueueOp) (heap : ObjectPool Order capacity) (ps : List Ptr) :
    Decidable (op.AdmitsAt heap ps) :=
  match op with
  | .pushBack p => inferInstanceAs (Decidable (p ∉ ps))
  | .remove p => inferInstanceAs (Decidable (p ∈ ps))
  | .popFront => inferInstanceAs (Decidable True)
  | .fill _ _ => inferInstanceAs (Decidable (_ ∧ _ ∧ _))
  | .modifyQtyDown _ _ => inferInstanceAs (Decidable (_ ∧ _ ∧ _))

/-- What an operation does to its level, to the heap and to the list. -/
structure Performs (op : QueueOp) (level level' : PriceLevel) (heap heap' : ObjectPool Order capacity)
    (ps : List Ptr) : Prop where
  holds : level'.Holds heap' (op.onList ps)
  moved : volume heap' (op.onList ps) = volume heap ps + op.delta heap ps
  /-- The cached depth follows the volume of the list, in 32 bits. -/
  total : level.totalQuantity = toInt32 (volume heap ps) →
    level'.totalQuantity = toInt32 (volume heap ps + op.delta heap ps)
  /-- Slots outside the list stay as they are. -/
  frame : ∀ x, x ∉ ps → x ∉ op.onList ps → heap'.get x = heap.get x
  /-- Only a pushed order enters the list. -/
  entered : ∀ x ∈ op.onList ps, x ∈ ps ∨ op = .pushBack x
  /-- An order that leaves the list is unlinked. -/
  left : ∀ x ∈ ps, x ∉ op.onList ps → (heap'.get x).prev = none ∧ (heap'.get x).next = none

variable {level : PriceLevel} {heap heap' : ObjectPool Order capacity} {p : Ptr} {ps qs : List Ptr}

@[simp] theorem volume_append : volume heap (ps ++ qs) = volume heap ps + volume heap qs := by
  rw [volume, List.map_append, List.sum_append]
  rfl

@[simp] theorem volume_cons : volume heap (p :: ps) = (heap.get p).remaining + volume heap ps := by
  rw [volume, List.map_cons, List.sum_cons]
  rfl

@[simp] theorem volume_nil : volume heap [] = 0 := rfl

/-- The volume of a list depends on what remains of its orders. -/
theorem volume_congr (h : ∀ x ∈ ps, (heap'.get x).remaining = (heap.get x).remaining) :
    volume heap' ps = volume heap ps :=
  congrArg List.sum (List.map_congr_left h)

/-- Links do not count. -/
theorem volume_of_unlink (h : ∀ x, (heap'.get x).unlink = (heap.get x).unlink) (ps : List Ptr) :
    volume heap' ps = volume heap ps :=
  volume_congr fun x _ => by rw [← Order.remaining_unlink, h, Order.remaining_unlink]

/-- Changing one order of a list changes the volume by as much. -/
theorem volume_modify (hnodup : ps.Nodup) (hp : p ∈ ps) (f : Order → Order) :
    volume (heap.modify p f) ps =
      volume heap ps + ((f (heap.get p)).remaining - (heap.get p).remaining) := by
  have hmap : (ps.map fun x => ((heap.modify p f).get x).remaining) =
      ps.map fun x => if x = p then (f (heap.get x)).remaining else (heap.get x).remaining := by
    refine List.map_congr_left fun x _ => ?_
    rw [ObjectPool.get_modify]
    split_ifs with hx
    · rw [hx]
    · rfl
  rw [volume, hmap, List.sum_map_ite_eq, List.count_eq_one_of_mem hnodup hp, one_smul, add_comm]
  rfl

private theorem performs_pushBack (h : level.Holds heap ps) (hp : p ∉ ps) :
    (pushBack p).Performs level (level.pushBack heap p).1 heap (level.pushBack heap p).2 ps where
  holds := h.pushBack hp
  total htotal := by
    rw [PriceLevel.pushBack, htotal, toInt32_toInt32_add]
    rfl
  moved := by
    have htail : level.tail ≠ some p := fun e => hp (List.mem_of_getLast? (h.tail ▸ e))
    rw [volume_of_unlink (PriceLevel.unlink_pushBack heap htail)]
    simp [onList, delta]
  frame x hx hx' := h.get_pushBack_of_notMem hp hx fun e => hx' (by simp [onList, e])
  entered x hx := by
    rcases List.mem_append.mp hx with hx | hx
    · exact Or.inl hx
    · rw [List.mem_singleton.mp hx]
      exact Or.inr rfl
  left x hx hx' := absurd (List.mem_append_left _ hx) hx'

/-- A removal from anywhere in the list, with the list cut at the order. -/
theorem performs_remove (op : QueueOp) (h : level.Holds heap (ps ++ p :: qs))
    (hlist : op.onList (ps ++ p :: qs) = ps ++ qs)
    (hdelta : op.delta heap (ps ++ p :: qs) = -(heap.get p).remaining) :
    op.Performs level (level.remove heap p).1 heap (level.remove heap p).2 (ps ++ p :: qs) where
  holds := hlist ▸ h.remove
  total htotal := by
    rw [PriceLevel.remove, htotal, toInt32_toInt32_sub, hdelta, sub_eq_add_neg]
  moved := by
    rw [volume_of_unlink h.unlink_remove, hlist, hdelta]
    simp only [volume_append, volume_cons]
    omega
  frame x hx _ := h.get_remove_of_notMem hx
  entered x hx := by
    rw [hlist] at hx
    refine Or.inl (List.mem_append.mpr ((List.mem_append.mp hx).imp_right ?_))
    exact List.mem_cons_of_mem p
  left x hx hx' := by
    have hxp : x = p := by
      rw [hlist] at hx'
      simp only [List.mem_append, List.mem_cons, not_or] at hx hx'
      tauto
    rw [h.get_remove, if_pos hxp]
    exact ⟨rfl, rfl⟩

/-- A change of one order that leaves its links alone, with the level told how much it took away. -/
theorem performs_modify (op : QueueOp) (h : level.Holds heap ps) (hp : p ∈ ps) (f : Order → Order)
    (hlinks : ∀ o, (f o).prev = o.prev ∧ (f o).next = o.next) (hlist : op.onList ps = ps)
    (hdelta : op.delta heap ps = (f (heap.get p)).remaining - (heap.get p).remaining)
    {totalQuantity : Int} (hcached : totalQuantity = toInt32 (level.totalQuantity + op.delta heap ps)) :
    op.Performs level { level with totalQuantity } heap (heap.modify p f) ps where
  holds := by
    rw [hlist]
    refine (h.congr (fun x _ => ?_) fun x _ => ?_).of_total totalQuantity
    · rw [ObjectPool.get_modify]
      split_ifs with hx
      · rw [(hlinks _).1, hx]
      · rfl
    · rw [ObjectPool.get_modify]
      split_ifs with hx
      · rw [(hlinks _).2, hx]
      · rfl
  total htotal := by rw [hcached, htotal, toInt32_toInt32_add]
  moved := by rw [hlist, hdelta, volume_modify h.nodup hp]
  frame x hx _ := ObjectPool.get_modify_of_ne _ _ fun e => hx (e ▸ hp)
  entered x hx := Or.inl (hlist ▸ hx)
  left x hx hx' := absurd hx (hlist ▸ hx')

/-- Popping the empty list. -/
theorem performs_nothing (h : level.Holds heap []) : popFront.Performs level level heap heap [] where
  holds := h
  total htotal := by simpa [delta] using htotal
  moved := rfl
  frame _ _ _ := rfl
  entered x hx := Or.inl hx
  left x hx := absurd hx List.not_mem_nil

/-- Every operation does to the links and the counters what it does to the list. -/
theorem performs (op : QueueOp) (h : level.Holds heap ps) (hadmits : op.AdmitsAt heap ps) :
    op.Performs level (op.apply level heap).1 heap (op.apply level heap).2 ps := by
  cases op with
  | pushBack p => exact performs_pushBack h hadmits
  | remove p =>
    obtain ⟨front, back, rfl⟩ := List.append_of_mem hadmits
    have hp : p ∉ front := fun hp => (List.nodup_append.mp h.nodup).2.2 p hp p List.mem_cons_self rfl
    refine performs_remove (remove p) h ?_ rfl
    rw [onList, List.erase_append_right _ hp, List.erase_cons_head]
  | popFront =>
    cases ps with
    | nil =>
      rw [apply, h.popFront_nil]
      exact performs_nothing h
    | cons p ps =>
      have hfront : level.Holds heap ([] ++ p :: ps) := h
      rw [apply, h.popFront_cons]
      exact performs_remove popFront hfront rfl (by simp [delta])
  | fill p q =>
    refine performs_modify (fill p q) h hadmits.1 (·.fill q) (fun o => ⟨rfl, rfl⟩) rfl ?_ ?_
    · simp only [delta, Order.fill, Order.remaining]
      omega
    · rw [delta, sub_eq_add_neg]
  | modifyQtyDown p newQty =>
    refine performs_modify (modifyQtyDown p newQty) h hadmits.1
      (fun x => { x with quantity := x.filledQuantity + newQty }) (fun o => ⟨rfl, rfl⟩) rfl ?_ ?_
    · simp only [delta, Order.remaining]
      omega
    · refine congrArg toInt32 ?_
      simp only [delta, Order.remaining]
      omega

end QueueOp

/-- Levels over one heap of orders, and the plain lists that they stand for. -/
structure QueueRun (ι : Type) (capacity : Nat) where
  levels : ι → PriceLevel
  heap : ObjectPool Order capacity
  queues : ι → List Ptr

namespace QueueRun

variable {ι : Type} {capacity : Nat}

/-- Empty levels over orders with any contents, none of which is linked yet. -/
def init (orders : Ptr → Order) : QueueRun ι capacity where
  levels _ := {}
  heap := { storage := fun p => .storage (orders p).unlink, head := none, allocatedCount := 0 }
  queues _ := []

/-- One operation of one level. -/
def step [DecidableEq ι] (s : QueueRun ι capacity) (a : ι × QueueOp) :
    Option (QueueRun ι capacity) :=
  let result := a.2.apply (s.levels a.1) s.heap
  some
    { levels := Function.update s.levels a.1 result.1
      heap := result.2
      queues := Function.update s.queues a.1 (a.2.onList (s.queues a.1)) }

/-- Orders are pushed that are in no level, and members of the level are removed, filled and
reduced. -/
def Admits (s : QueueRun ι capacity) (a : ι × QueueOp) : Prop :=
  a.2.AdmitsAt s.heap (s.queues a.1) ∧ ∀ k, ∀ x ∈ s.queues k, a.2 ≠ .pushBack x

instance [Fintype ι] (s : QueueRun ι capacity) (a : ι × QueueOp) : Decidable (s.Admits a) :=
  inferInstanceAs (Decidable (_ ∧ ∀ k, ∀ x ∈ s.queues k, a.2 ≠ .pushBack x))

/-- What remains of all orders of a level. -/
def volume (s : QueueRun ι capacity) (k : ι) : Int := QueueOp.volume s.heap (s.queues k)

/-- The levels are the plain lists, each order in at most one of them. -/
structure Fifo (s : QueueRun ι capacity) : Prop where
  forward : ∀ k, Linked.Chain (fun p => some (s.heap.get p).next) (s.levels k).head (s.queues k)
  backward : ∀ k,
    Linked.Chain (fun p => some (s.heap.get p).prev) (s.levels k).tail (s.queues k).reverse
  nodup : ∀ k, (s.queues k).Nodup
  separate : ∀ k k' p, p ∈ s.queues k → p ∈ s.queues k' → k = k'
  count : ∀ k, (s.levels k).orderCount = (s.queues k).length
  front : ∀ k, ((s.levels k).popFront s.heap).1 = (s.queues k).head?
  /-- An order in no level has null links, as a push asserts. -/
  unlinked : ∀ p, (∀ k, p ∉ s.queues k) → (s.heap.get p).prev = none ∧ (s.heap.get p).next = none

/-- Besides, the cached depth is what remains of the orders. -/
structure Exact (s : QueueRun ι capacity) : Prop extends s.Fifo where
  total : ∀ k, (s.levels k).totalQuantity = s.volume k

/-- What the level is left with fits its counter. -/
def FitsTotal (s : QueueRun ι capacity) (a : ι × QueueOp) : Prop :=
  FitsInt32 (s.volume a.1 + a.2.delta s.heap (s.queues a.1))

instance (s : QueueRun ι capacity) (a : ι × QueueOp) : Decidable (s.FitsTotal a) :=
  inferInstanceAs (Decidable (FitsInt32 _))

/-- What holds in every state: the depth is exact up to wrap-around. -/
structure Inv (s : QueueRun ι capacity) : Prop where
  holds : ∀ k, (s.levels k).Holds s.heap (s.queues k)
  separate : ∀ k k' p, p ∈ s.queues k → p ∈ s.queues k' → k = k'
  unlinked : ∀ p, (∀ k, p ∉ s.queues k) → (s.heap.get p).prev = none ∧ (s.heap.get p).next = none
  total : ∀ k, (s.levels k).totalQuantity = toInt32 (s.volume k)

variable {s s' : QueueRun ι capacity} {a : ι × QueueOp}

private theorem inv_init (orders : Ptr → Order) : (init orders : QueueRun ι capacity).Inv where
  holds _ := PriceLevel.holds_empty
  separate _ _ _ hp := absurd hp List.not_mem_nil
  unlinked _ _ := ⟨rfl, rfl⟩
  total _ := toInt32_zero.symm

private theorem Inv.fifo (h : s.Inv) : s.Fifo where
  forward k := by
    rw [(h.holds k).head]
    exact (h.holds k).linked.chain_next
  backward k := by
    rw [(h.holds k).tail]
    exact (h.holds k).linked.chain_prev
  nodup k := (h.holds k).nodup
  separate := h.separate
  count k := (h.holds k).count
  front k := by
    have hk := h.holds k
    cases hq : s.queues k with
    | nil =>
      rw [hq] at hk
      rw [hk.popFront_nil, List.head?_nil]
    | cons p ps =>
      rw [hq] at hk
      rw [hk.popFront_cons, List.head?_cons]
  unlinked := h.unlinked

/-- The cached depths are exact as long as they fit. -/
theorem Inv.exact_iff (h : s.Inv) : s.Exact ↔ ∀ k, FitsInt32 (s.volume k) := by
  constructor
  · intro hexact k
    rw [← hexact.total k, h.total k]
    exact fitsInt32_toInt32 _
  · exact fun hfits => ⟨h.fifo, fun k => (h.total k).trans (toInt32_eq_self (hfits k).1 (hfits k).2)⟩

/-- An operation on one level leaves the orders of the others alone. -/
theorem Inv.get_other (h : s.Inv) {l k : ι} {op : QueueOp} (hkl : k ≠ l)
    (hadmits : s.Admits (l, op)) {x : Ptr} (hx : x ∈ s.queues k) :
    ((op.apply (s.levels l) s.heap).2).get x = s.heap.get x := by
  have hperforms := op.performs (h.holds l) hadmits.1
  have hout : x ∉ s.queues l := fun hx' => hkl (h.separate k l x hx hx')
  refine hperforms.frame x hout fun hx' => ?_
  exact (hperforms.entered x hx').elim hout (hadmits.2 k x hx)

variable [DecidableEq ι]

/-- An operation changes what remains of its own level. -/
theorem Inv.volume_step (h : s.Inv) (hadmits : s.Admits a) (hs : s.step a = some s') (k : ι) :
    s'.volume k = if k = a.1 then s.volume a.1 + a.2.delta s.heap (s.queues a.1) else s.volume k := by
  obtain ⟨l, op⟩ := a
  obtain rfl := Option.some.inj hs
  split_ifs with hk
  · subst hk
    simp only [volume, Function.update_self]
    exact (op.performs (h.holds _) hadmits.1).moved
  · simp only [volume, Function.update_of_ne hk]
    exact QueueOp.volume_congr fun x hx => by rw [h.get_other hk hadmits hx]

/-- An operation changes the list of its own level, to which it adds at most a new order. -/
theorem Inv.mem_step (h : s.Inv) (hadmits : s.Admits a) (hs : s.step a = some s') {k : ι} {x : Ptr}
    (hx : x ∈ s'.queues k) : x ∈ s.queues k ∨ k = a.1 ∧ ∀ k', x ∉ s.queues k' := by
  obtain ⟨l, op⟩ := a
  obtain rfl := Option.some.inj hs
  by_cases hk : k = l
  · subst hk
    simp only [Function.update_self] at hx
    refine ((op.performs (h.holds k) hadmits.1).entered x hx).imp_right fun hpush => ⟨rfl, ?_⟩
    exact fun k' hx' => hadmits.2 k' x hx' hpush
  · simp only [Function.update_of_ne hk] at hx
    exact Or.inl hx

/-- An operation keeps the invariant. -/
theorem Inv.step (h : s.Inv) (hadmits : s.Admits a) (hs : s.step a = some s') : s'.Inv := by
  have hvolume := h.volume_step hadmits hs
  have hmem := fun {k x} => h.mem_step hadmits hs (k := k) (x := x)
  obtain ⟨l, op⟩ := a
  have hperforms := op.performs (h.holds l) hadmits.1
  obtain rfl := Option.some.inj hs
  refine ⟨fun k => ?_, fun k k' p hp hp' => ?_, fun p hout => ?_, fun k => ?_⟩
  · by_cases hk : k = l
    · subst hk
      simp only [Function.update_self]
      exact hperforms.holds
    · simp only [Function.update_of_ne hk]
      refine (h.holds k).congr (fun x hx => ?_) fun x hx => ?_
      · rw [h.get_other hk hadmits hx]
      · rw [h.get_other hk hadmits hx]
  · rcases hmem hp with hold | ⟨hk, hnew⟩
    · rcases hmem hp' with hold' | ⟨-, hnew'⟩
      · exact h.separate k k' p hold hold'
      · exact absurd hold (hnew' k)
    · rcases hmem hp' with hold' | ⟨hk', -⟩
      · exact absurd hold' (hnew k')
      · exact hk.trans hk'.symm
  · have hleft : p ∉ op.onList (s.queues l) := by simpa using hout l
    by_cases hp : p ∈ s.queues l
    · exact hperforms.left p hp hleft
    · have hsame := hperforms.frame p hp hleft
      rw [hsame]
      refine h.unlinked p fun k hk => hout k ?_
      have hkl : k ≠ l := fun e => hp (e ▸ hk)
      simpa [Function.update_of_ne hkl] using hk
  · rw [hvolume]
    by_cases hk : k = l
    · subst hk
      simp only [Function.update_self, if_true]
      exact hperforms.total (h.total k)
    · simp only [Function.update_of_ne hk, if_neg hk]
      exact h.total k

/-- An operation keeps the depths exact exactly if its level's still fits. -/
theorem Inv.exact_step (h : s.Inv) (hexact : s.Exact) (hadmits : s.Admits a) :
    ∃ s', s.step a = some s' ∧ s'.Inv ∧ (s'.Exact ↔ s.FitsTotal a) := by
  obtain ⟨s', hs⟩ : ∃ s', s.step a = some s' := ⟨_, rfl⟩
  have hinv := h.step hadmits hs
  have hvolume := h.volume_step hadmits hs
  refine ⟨s', hs, hinv, hinv.exact_iff.trans ⟨fun hfits => ?_, fun hfits k => ?_⟩⟩
  · have hown := hfits a.1
    rwa [hvolume, if_pos rfl] at hown
  · rw [hvolume]
    split_ifs
    · exact hfits
    · exact h.exact_iff.mp hexact k

end QueueRun

/-- Along every run of operations on several levels over one heap, the links of each level describe
in both directions the list obtained by appending, deleting and popping, whose length is the count;
orders in no level are unlinked. The cached depths are the sums of what remains, in every state,
exactly if no operation leaves a level with more than its counter holds. -/
theorem levels_are_lists {ι : Type} [DecidableEq ι] {capacity : Nat} (orders : Ptr → Order)
    (actions : List (ι × QueueOp))
    (hactions : Machine.Meets QueueRun.step QueueRun.Admits
      (QueueRun.init orders : QueueRun ι capacity) actions) :
    Machine.Always QueueRun.step QueueRun.Fifo (QueueRun.init orders : QueueRun ι capacity) actions ∧
      (Machine.Always QueueRun.step QueueRun.Exact (QueueRun.init orders : QueueRun ι capacity)
          actions ↔
        Machine.Meets QueueRun.step QueueRun.FitsTotal (QueueRun.init orders : QueueRun ι capacity)
          actions) := by
  have hinit : (QueueRun.init orders : QueueRun ι capacity).Inv := QueueRun.inv_init orders
  have hexact : (QueueRun.init orders : QueueRun ι capacity).Exact :=
    hinit.exact_iff.mpr fun _ => (by decide : FitsInt32 0)
  refine ⟨hactions.always QueueRun.Inv (fun h => h.step) (fun h => h.fifo) hinit, ?_⟩
  exact Machine.always_iff_meets QueueRun.Inv (fun h => h.exact_step) hinit hexact hactions

/-- Two levels: an order is removed from the middle, one is filled in part, one is reduced, and the
front is popped. -/
theorem levels_are_lists_two_levels :
    Machine.Always QueueRun.step QueueRun.Exact
      (QueueRun.init fun p => { id := p, quantity := 100 } : QueueRun Bool 8)
      [(true, .pushBack 0), (true, .pushBack 1), (false, .pushBack 2), (true, .pushBack 3),
        (true, .remove 1), (true, .fill 0 40), (true, .modifyQtyDown 3 10), (true, .popFront),
        (false, .pushBack 1)] :=
  (levels_are_lists _ _ (by decide +kernel)).2.mpr (by decide +kernel)

/-- Two orders of the largest quantity leave a cached depth of -2. -/
theorem second_push_wraps_total :
    Machine.Meets QueueRun.step QueueRun.Admits
        (QueueRun.init fun _ => { quantity := 2147483647 } : QueueRun Unit 2)
        [((), .pushBack 0), ((), .pushBack 1)] ∧
      ∃ s, Machine.run QueueRun.step
          (QueueRun.init fun _ => { quantity := 2147483647 } : QueueRun Unit 2)
          [((), .pushBack 0), ((), .pushBack 1)] = some s ∧
        (s.levels ()).totalQuantity = -2 ∧ s.volume () = 4294967294 ∧ ¬ s.Exact := by
  refine ⟨by decide +kernel, _, rfl, by decide +kernel, by decide +kernel, fun hexact => ?_⟩
  exact absurd (hexact.total ()) (by decide +kernel)

end LiquidityArena

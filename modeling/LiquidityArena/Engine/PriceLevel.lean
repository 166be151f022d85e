import LiquidityArena.Engine.ObjectPool

/-!
# A price level as an intrusive queue

The orders of one level are chained through pointers stored in the orders
themselves, so every list operation rewrites slots of the shared pool.
`Holds level pool ps` identifies the queue a level represents. Each operation is
described by the queue it produces, by the slots it leaves untouched, and by the
fact that it rewrites nothing but list pointers.
-/

namespace LiquidityArena

/-- Head and tail of the queue with its cached depth and length. -/
structure PriceLevel where
  head : Option Ptr := none
  tail : Option Ptr := none
  totalQuantity : Int := 0
  orderCount : Nat := 0
  deriving DecidableEq, Repr

namespace PriceLevel

variable {capacity : Nat}

/-- Append an order to the back of the queue. -/
def pushBack (level : PriceLevel) (pool : ObjectPool Order capacity) (p : Ptr) :
    PriceLevel × ObjectPool Order capacity :=
  let linked := pool.modify p fun o => { o with prev := level.tail, next := none }
  let pool' := linked.modifyIf level.tail fun o => { o with next := some p }
  ({ head := if level.tail.isSome then level.head else some p
     tail := some p
     totalQuantity := toInt32 (level.totalQuantity + (pool.get p).remaining)
     orderCount := level.orderCount + 1 }, pool')

/-- Remove and return the front order. -/
def popFront (level : PriceLevel) (pool : ObjectPool Order capacity) :
    Option Ptr × PriceLevel × ObjectPool Order capacity :=
  match level.head with
  | none => (none, level, pool)
  | some p =>
    let o := pool.get p
    let pool' := pool.modifyIf o.next fun x => { x with prev := none }
    (some p,
      { head := o.next
        tail := if o.next.isSome then level.tail else none
        totalQuantity := toInt32 (level.totalQuantity - o.remaining)
        orderCount := level.orderCount - 1 },
      pool'.modify p fun x => { x with prev := none, next := none })

/-- Remove an order from anywhere in the queue. -/
def remove (level : PriceLevel) (pool : ObjectPool Order capacity) (p : Ptr) :
    PriceLevel × ObjectPool Order capacity :=
  let o := pool.get p
  let pool1 := pool.modifyIf o.prev fun x => { x with next := o.next }
  let pool2 := pool1.modifyIf o.next fun x => { x with prev := o.prev }
  ({ head := if o.prev.isSome then level.head else o.next
     tail := if o.next.isSome then level.tail else o.prev
     totalQuantity := toInt32 (level.totalQuantity - o.remaining)
     orderCount := level.orderCount - 1 },
    pool2.modify p fun x => { x with prev := none, next := none })

/-- Account for an execution without removing the order. -/
def reduceQuantity (level : PriceLevel) (amount : Int) : PriceLevel :=
  { level with totalQuantity := toInt32 (level.totalQuantity - amount) }

/-- Reduce an order's quantity in place, keeping its queue position. -/
def modifyQtyDown (level : PriceLevel) (pool : ObjectPool Order capacity) (p : Ptr)
    (newQty : Int) : PriceLevel × ObjectPool Order capacity :=
  let o := pool.get p
  let delta := o.quantity - o.filledQuantity - newQty
  ({ level with totalQuantity := toInt32 (level.totalQuantity - delta) },
    pool.modify p fun x => { x with quantity := x.filledQuantity + newQty })

/-- The oldest order. -/
def front (level : PriceLevel) : Option Ptr := level.head

/-- Whether there is no order. -/
def empty (level : PriceLevel) : Bool := level.head.isNone

/-- The pointers met by following `next` from the front of the queue. -/
def queue (level : PriceLevel) (pool : ObjectPool Order capacity) : List Ptr :=
  Linked.walk (fun p => (pool.get p).next) level.orderCount level.head

/-- The volume in front of an order, added up on a walk from the front of the queue. -/
def queueVolumeAhead (level : PriceLevel) (pool : ObjectPool Order capacity) (p : Ptr) : Int :=
  ((level.queue pool).takeWhile fun cur => cur ≠ p).foldl
    (fun vol cur => toInt32 (vol + (pool.get cur).remaining)) 0

/-- The level is the queue of exactly these orders, oldest first. -/
structure Holds (level : PriceLevel) (pool : ObjectPool Order capacity) (ps : List Ptr) :
    Prop where
  head : level.head = ps.head?
  tail : level.tail = ps.getLast?
  linked : Linked.Segment (fun p => (pool.get p).prev) (fun p => (pool.get p).next) none ps none
  nodup : ps.Nodup
  count : level.orderCount = ps.length

variable {level : PriceLevel} {pool pool' : ObjectPool Order capacity} {ps qs : List Ptr} {p : Ptr}

/-- The represented queue is what a traversal from the front visits. -/
theorem Holds.queue_eq (h : level.Holds pool ps) : level.queue pool = ps := by
  rw [queue, h.count, h.head, h.linked.walk_eq]

/-- A level is empty exactly when its queue is. -/
theorem Holds.empty_iff (h : level.Holds pool ps) : level.empty = true ↔ ps = [] := by
  simp [empty, h.head]

/-- The walk adds up what remains of the orders in front, in 32 bits. -/
theorem Holds.queueVolumeAhead_eq (h : level.Holds pool (ps ++ p :: qs)) :
    level.queueVolumeAhead pool p = toInt32 (ps.map fun x => (pool.get x).remaining).sum := by
  have hfront : ((ps ++ p :: qs).takeWhile fun cur => cur ≠ p) = ps := by
    rw [List.takeWhile_append_of_pos, List.takeWhile_cons_of_neg (by simp), List.append_nil]
    intro x hx
    exact decide_eq_true ((List.nodup_append.mp h.nodup).2.2 x hx p List.mem_cons_self)
  have hsum : ∀ (xs : List Ptr) (vol : Int),
      xs.foldl (fun vol cur => toInt32 (vol + (pool.get cur).remaining)) (toInt32 vol) =
        toInt32 (vol + (xs.map fun x => (pool.get x).remaining).sum) := by
    intro xs
    induction xs with
    | nil => simp
    | cons x xs ih =>
      intro vol
      rw [List.foldl_cons, toInt32_toInt32_add, ih, List.map_cons, List.sum_cons, add_assoc]
  have hwalk := hsum ps 0
  rw [toInt32_zero, zero_add] at hwalk
  rw [queueVolumeAhead, h.queue_eq, hfront, hwalk]

/-- A queue depends only on the links of its own orders. -/
theorem Holds.congr (h : level.Holds pool ps) (hp : ∀ p ∈ ps, (pool'.get p).prev = (pool.get p).prev)
    (hn : ∀ p ∈ ps, (pool'.get p).next = (pool.get p).next) : level.Holds pool' ps where
  head := h.head
  tail := h.tail
  linked := h.linked.congr hp hn
  nodup := h.nodup
  count := h.count

/-- The cached depth plays no part in the queue. -/
theorem Holds.of_total (h : level.Holds pool ps) (totalQuantity : Int) :
    { level with totalQuantity }.Holds pool ps :=
  ⟨h.head, h.tail, h.linked, h.nodup, h.count⟩

/-- A new level holds the empty queue. -/
theorem holds_empty : ({} : PriceLevel).Holds pool [] where
  head := rfl
  tail := rfl
  linked := trivial
  nodup := List.nodup_nil
  count := rfl

/-- What a push leaves in every slot. -/
theorem get_pushBack (pool : ObjectPool Order capacity) (hp : level.tail ≠ some p) (x : Ptr) :
    ((level.pushBack pool p).2).get x =
      if x = p then { pool.get p with prev := level.tail, next := none }
      else if level.tail = some x then { pool.get x with next := some p } else pool.get x := by
  simp only [pushBack, ObjectPool.get_modifyIf, ObjectPool.get_modify]
  by_cases hxp : x = p
  · rw [hxp, if_neg hp, if_pos rfl, if_pos rfl]
  · simp only [hxp, if_false]

/-- A push appends to the represented queue. -/
theorem Holds.pushBack (h : level.Holds pool ps) (hp : p ∉ ps) :
    ((level.pushBack pool p).1).Holds (level.pushBack pool p).2 (ps ++ [p]) := by
  have htail : level.tail ≠ some p := by
    rw [h.tail]
    exact fun e => hp (List.mem_of_getLast? e)
  have hget := get_pushBack pool htail
  have hne : ∀ q ∈ ps, q ≠ p := fun q hq e => hp (e ▸ hq)
  refine ⟨?_, by simp [PriceLevel.pushBack], ?_, ?_, by simp [PriceLevel.pushBack, h.count]⟩
  · simp only [PriceLevel.pushBack, h.head, h.tail]
    cases ps <;> simp
  · refine h.linked.push_back h.nodup ?_ ?_ ?_ ?_ ?_
    · intro q hq
      simp only [hget, hne q hq, if_false]
      split <;> rfl
    · intro q hq hlast
      simp only [hget, hne q hq, if_false, h.tail, hlast]
    · intro q hlast
      simp only [hget, hne q (List.mem_of_getLast? hlast), if_false, h.tail, hlast, if_true]
    · simp only [hget, if_true, h.tail]
    · simp only [hget, if_true]
  · exact List.nodup_append.mpr ⟨h.nodup, List.nodup_singleton p, by simpa using hne⟩

/-- A push rewrites nothing but list pointers. -/
theorem unlink_pushBack (pool : ObjectPool Order capacity) (hp : level.tail ≠ some p) (x : Ptr) :
    (((level.pushBack pool p).2).get x).unlink = (pool.get x).unlink := by
  rw [get_pushBack pool hp]
  split
  · simp_all [Order.unlink]
  · split <;> rfl

/-- A push touches the pushed order and the queue, and no other slot. -/
theorem Holds.get_pushBack_of_notMem (h : level.Holds pool ps) (hp : p ∉ ps) {x : Ptr}
    (hx : x ∉ ps) (hxp : x ≠ p) : ((level.pushBack pool p).2).get x = pool.get x := by
  have htail : level.tail ≠ some p := fun e => hp (List.mem_of_getLast? (h.tail ▸ e))
  have hxt : level.tail ≠ some x := fun e => hx (List.mem_of_getLast? (h.tail ▸ e))
  rw [get_pushBack pool htail, if_neg hxp, if_neg hxt]

/-- Appending an order to a level keeps the live slots. -/
theorem Live_pushBack {live : List Ptr} (h : pool.Live live) (hp : p ∈ live)
    (ht : ∀ t, level.tail = some t → t ∈ live) : ((level.pushBack pool p).2).Live live := by
  exact (h.modify hp _).modifyIf ht _

/-- The links of an order inside a represented queue are its two neighbours. -/
theorem Holds.links (h : level.Holds pool (ps ++ p :: qs)) :
    (pool.get p).prev = ps.getLast? ∧ (pool.get p).next = qs.head? := by
  have hl := h.linked
  rw [Linked.segment_append, Linked.segment_cons] at hl
  exact ⟨by simpa using hl.2.1, by simpa using hl.2.2.1⟩

/-- What a removal leaves in every slot. -/
theorem Holds.get_remove (h : level.Holds pool (ps ++ p :: qs)) (x : Ptr) :
    ((level.remove pool p).2).get x =
      if x = p then { pool.get p with prev := none, next := none }
      else if qs.head? = some x then { pool.get x with prev := ps.getLast? }
      else if ps.getLast? = some x then { pool.get x with next := qs.head? }
      else pool.get x := by
  obtain ⟨hprev, hnext⟩ := h.links
  have hnd := h.nodup
  simp only [List.nodup_append, List.nodup_cons, List.mem_cons] at hnd
  obtain ⟨-, ⟨hpq, -⟩, hdisj⟩ := hnd
  have hpl : ps.getLast? ≠ some p := fun e => hdisj p (List.mem_of_getLast? e) p (Or.inl rfl) rfl
  have hph : qs.head? ≠ some p := fun e => hpq (List.mem_of_head? e)
  simp only [PriceLevel.remove, hprev, hnext, ObjectPool.get_modifyIf, ObjectPool.get_modify]
  by_cases hxp : x = p
  · rw [if_pos hxp, if_pos hxp, if_neg hph, if_neg hpl]
  · rw [if_neg hxp, if_neg hxp]
    by_cases hxc : qs.head? = some x
    · have hxa : ps.getLast? ≠ some x := fun e =>
        hdisj x (List.mem_of_getLast? e) x (Or.inr (List.mem_of_head? hxc)) rfl
      rw [if_pos hxc, if_pos hxc, if_neg hxa]
    · rw [if_neg hxc, if_neg hxc]

/-- A removal deletes exactly the removed order from the represented queue. -/
theorem Holds.remove (h : level.Holds pool (ps ++ p :: qs)) :
    ((level.remove pool p).1).Holds (level.remove pool p).2 (ps ++ qs) := by
  obtain ⟨hprev, hnext⟩ := h.links
  have hget := h.get_remove
  have hnd := h.nodup
  simp only [List.nodup_append, List.nodup_cons, List.mem_cons] at hnd
  obtain ⟨hps, ⟨hpq, hqs⟩, hdisj⟩ := hnd
  have hne : ∀ q ∈ ps ++ qs, q ≠ p := by
    intro q hq e
    rcases List.mem_append.mp hq with hq | hq
    · exact hdisj q hq p (Or.inl rfl) e
    · exact hpq (e ▸ hq)
  refine ⟨?_, ?_, ?_, ?_, ?_⟩
  · simp only [PriceLevel.remove, hprev, hnext, h.head]
    cases ps <;> simp
  · simp only [PriceLevel.remove, hprev, hnext, h.tail]
    cases qs with
    | nil => simp
    | cons c rest => simp [List.getLast?_append, List.getLast?_cons]
  · refine h.linked.remove h.nodup ?_ ?_ ?_ ?_
    · intro q hq hhead
      simp only [hget, hne q hq, if_false, hhead]
      split <;> rfl
    · intro q hq hlast
      simp only [hget, hne q hq, if_false, hlast]
      split <;> rfl
    · intro q hhead
      simp only [hget, hne q (by simp [List.mem_of_head? hhead]), if_false, hhead, if_true]
    · intro q hlast
      have hnh : qs.head? ≠ some q := fun e =>
        hdisj q (List.mem_of_getLast? hlast) q (Or.inr (List.mem_of_head? e)) rfl
      simp only [hget, hne q (by simp [List.mem_of_getLast? hlast]), if_false, hnh, hlast, if_true]
  · exact List.nodup_append.mpr ⟨hps, hqs, fun a ha b hb => hdisj a ha b (Or.inr hb)⟩
  · simp [PriceLevel.remove, h.count]

/-- Popping an empty queue does nothing. -/
theorem Holds.popFront_nil (h : level.Holds pool []) : level.popFront pool = (none, level, pool) := by
  rw [PriceLevel.popFront, h.head, List.head?_nil]

/-- A pop is the removal of the front order. -/
theorem Holds.popFront_cons (h : level.Holds pool (p :: qs)) :
    level.popFront pool = (some p, level.remove pool p) := by
  have hfront : level.Holds pool ([] ++ p :: qs) := h
  obtain ⟨hprev, -⟩ := hfront.links
  rw [PriceLevel.popFront, h.head, List.head?_cons, PriceLevel.remove, hprev]
  rfl

/-- A removal rewrites nothing but list pointers. -/
theorem Holds.unlink_remove (h : level.Holds pool (ps ++ p :: qs)) (x : Ptr) :
    (((level.remove pool p).2).get x).unlink = (pool.get x).unlink := by
  rw [h.get_remove]
  split
  · simp_all [Order.unlink]
  · split
    · rfl
    · split <;> rfl

/-- A removal touches no slot outside the queue. -/
theorem Holds.get_remove_of_notMem (h : level.Holds pool (ps ++ p :: qs)) {x : Ptr}
    (hx : x ∉ ps ++ p :: qs) : ((level.remove pool p).2).get x = pool.get x := by
  simp only [List.mem_append, List.mem_cons, not_or] at hx
  have hh : qs.head? ≠ some x := fun e => hx.2.2 (List.mem_of_head? e)
  have hl : ps.getLast? ≠ some x := fun e => hx.1 (List.mem_of_getLast? e)
  rw [h.get_remove, if_neg hx.2.1, if_neg hh, if_neg hl]

/-- Unlinking an order from a level keeps the live slots. -/
theorem Holds.live_remove {live : List Ptr} (h : level.Holds pool (ps ++ p :: qs))
    (hl : pool.Live live) (hsub : ∀ x ∈ ps ++ p :: qs, x ∈ live) :
    ((level.remove pool p).2).Live live := by
  obtain ⟨hprev, hnext⟩ := h.links
  have hp : p ∈ live := hsub p (by simp)
  have ha : ∀ a, ps.getLast? = some a → a ∈ live := fun a ha =>
    hsub a (by simp [List.mem_of_getLast? ha])
  have hc : ∀ c, qs.head? = some c → c ∈ live := fun c hc =>
    hsub c (by simp [List.mem_of_head? hc])
  simp only [PriceLevel.remove, hprev, hnext]
  exact ((hl.modifyIf ha _).modifyIf hc _).modify hp _

end PriceLevel

end LiquidityArena

import LiquidityArena.View.BookView

/-!
# The representation invariant of the book

`Stored b ps` says that one list of pool slots, in arrival order, explains every
redundant structure of the book: the live slots, the id map and the queue of
every level are all read off `ps`; `Rep b ps` adds what the engine checks of the
icebergs it lets in. Each operation is then described by the new
list and by the change of view it amounts to.
-/

namespace LiquidityArena

namespace OrderBook

section Fields

variable (b : OrderBook) (s s' : Bool) (m : LevelMap) (price : Int)

/-- Setting the levels of one side leaves the other side's. -/
theorem levels_setLevels : (b.setLevels s m).levels s' = if s' = s then m else b.levels s' := by
  cases s <;> cases s' <;> rfl

@[simp] theorem pool_setLevels : (b.setLevels s m).pool = b.pool := by
  cases s <;> rfl

@[simp] theorem orderMap_setLevels : (b.setLevels s m).orderMap = b.orderMap := by
  cases s <;> rfl

@[simp] theorem best_setLevels : (b.setLevels s m).best s' = b.best s' := by
  cases s <;> cases s' <;> rfl

@[simp] theorem levels_setBest : (b.setBest s price).levels s' = b.levels s' := by
  cases s <;> cases s' <;> rfl

@[simp] theorem pool_setBest : (b.setBest s price).pool = b.pool := by
  cases s <;> rfl

@[simp] theorem orderMap_setBest : (b.setBest s price).orderMap = b.orderMap := by
  cases s <;> rfl

/-- Setting the best price of one side leaves the other side's. -/
theorem best_setBest : (b.setBest s price).best s' = if s' = s then price else b.best s' := by
  cases s <;> cases s' <;> rfl

@[simp] theorem levels_raiseBest : (b.raiseBest s price).levels s' = b.levels s' := by
  unfold raiseBest
  split <;> simp

@[simp] theorem pool_raiseBest : (b.raiseBest s price).pool = b.pool := by
  unfold raiseBest
  split <;> simp

@[simp] theorem orderMap_raiseBest : (b.raiseBest s price).orderMap = b.orderMap := by
  unfold raiseBest
  split <;> simp

/-- The best price of a side is raised when there is none or the new one is better. -/
theorem best_raiseBest : (b.raiseBest s price).best s' =
    if s' = s ∧ (b.best s' = invalidPrice ∨ Better s' price (b.best s')) then price
    else b.best s' := by
  unfold raiseBest
  by_cases hs : s' = s
  · subst hs
    split <;> simp_all [best_setBest]
  · split <;> simp [best_setBest, hs]

/-- Writing one level changes one entry of one map. -/
theorem lookup_setLevels_insert (t t' : Int) (level : PriceLevel) :
    ((b.setLevels s ((b.levels s).insert t level)).levels s').lookup t' =
      if s = s' ∧ t = t' then some level else (b.levels s').lookup t' := by
  rw [levels_setLevels]
  by_cases hs : s' = s
  · subst hs
    by_cases ht : t' = t
    · subst ht
      simp
    · rw [if_pos rfl, AList.lookup_insert_ne ht, if_neg fun e => ht e.2.symm]
  · rw [if_neg hs, if_neg fun e => hs e.1.symm]

/-- Erasing one level removes one entry of one map. -/
theorem lookup_setLevels_erase (t t' : Int) :
    ((b.setLevels s ((b.levels s).erase t)).levels s').lookup t' =
      if s = s' ∧ t = t' then none else (b.levels s').lookup t' := by
  rw [levels_setLevels]
  by_cases hs : s' = s
  · subst hs
    by_cases ht : t' = t
    · subst ht
      simp
    · rw [if_pos rfl, AList.lookup_erase_ne ht, if_neg fun e => ht e.2.symm]
  · rw [if_neg hs, if_neg fun e => hs e.1.symm]

end Fields

/-- The slots of one level, in arrival order. -/
def queueAt (pool : ObjectPool Order maxOrders) (ps : List Ptr) (isBid : Bool) (price : Int) :
    List Ptr :=
  ps.filter fun p => (pool.get p).At isBid price

/-- A map entry is right for a queue: no entry for the empty queue, else a level
that holds it and whose depth counter is a 32-bit value. -/
def SlotRep (entry : Option PriceLevel) (pool : ObjectPool Order maxOrders) (q : List Ptr) : Prop :=
  match entry with
  | none => q = []
  | some level =>
    level.Holds pool q ∧ q ≠ [] ∧ toInt32 level.totalQuantity = level.totalQuantity

/-- The view of a book whose slots are listed in arrival order. -/
def view (b : OrderBook) (ps : List Ptr) : BookView where
  orders := ps.map fun p => (b.pool.get p).unlink
  total s t := (((b.levels s).lookup t).map PriceLevel.totalQuantity).getD 0
  best := b.best

/-- The list of slots explains the pool, the id map and every level. -/
structure Stored (b : OrderBook) (ps : List Ptr) : Prop where
  /-- The live slots of the pool are the listed ones. -/
  live : b.pool.Live ps
  /-- The id map sends each listed order's id to its slot, and has no other key. -/
  map : ∀ id p, b.orderMap.lookup id = some p ↔ p ∈ ps ∧ (b.pool.get p).id = id
  /-- Every level holds the listed orders of its side and price. -/
  slots : ∀ s t, SlotRep ((b.levels s).lookup t) b.pool (queueAt b.pool ps s t)

/-- The book is stored as the list of slots says, and its icebergs are those the engine admits. -/
structure Rep (b : OrderBook) (ps : List Ptr) : Prop extends b.Stored ps where
  /-- An iceberg displays something. -/
  display : ∀ o ∈ (b.view ps).orders, o.type = .iceberg → 0 < o.displayQty

variable {b b' : OrderBook} {pool pool' : ObjectPool Order maxOrders} {ps : List Ptr} {p : Ptr}

@[simp] theorem best_view : (b.view ps).best = b.best := rfl

/-- The orders of the view are the unlinked contents of the resting slots. -/
theorem mem_orders {o : Order} : o ∈ (b.view ps).orders ↔ ∃ p ∈ ps, (b.pool.get p).unlink = o := by
  simp [view]

/-- The slots of a level are the resting slots whose order is at its price. -/
theorem mem_queueAt {s : Bool} {t : Int} :
    p ∈ queueAt pool ps s t ↔ p ∈ ps ∧ (pool.get p).At s t := by
  simp [queueAt]

/-- Queues depend only on the data of the listed slots. -/
theorem queueAt_congr (pool : ObjectPool Order maxOrders)
    (h : ∀ p ∈ ps, (pool'.get p).unlink = (pool.get p).unlink) (s : Bool) (t : Int) :
    queueAt pool' ps s t = queueAt pool ps s t := by
  apply List.filter_congr
  intro p hp
  rw [decide_eq_decide, ← Order.at_unlink, h p hp, Order.at_unlink]

/-- The view's levels are the queues. -/
theorem level_view (s : Bool) (t : Int) :
    (b.view ps).level s t = (queueAt b.pool ps s t).map fun p => (b.pool.get p).unlink := by
  simp only [BookView.level, view, queueAt, List.filter_map]
  rfl

/-- A level of the view is empty exactly when no slot rests there. -/
theorem level_view_eq_nil_iff {s : Bool} {t : Int} :
    (b.view ps).level s t = [] ↔ queueAt b.pool ps s t = [] := by
  rw [level_view, List.map_eq_nil_iff]

/-- A map entry stays right while the links of its queue stay put. -/
theorem SlotRep.congr {entry : Option PriceLevel} {q : List Ptr} (h : SlotRep entry pool q)
    (hl : ∀ p ∈ q, (pool'.get p).prev = (pool.get p).prev ∧
      (pool'.get p).next = (pool.get p).next) : SlotRep entry pool' q := by
  cases entry with
  | none => exact h
  | some level =>
    exact ⟨h.1.congr (fun p hp => (hl p hp).1) fun p hp => (hl p hp).2, h.2⟩

/-- The queue behind an entry that may have just been created. -/
theorem SlotRep.holds_getD {entry : Option PriceLevel} {q : List Ptr} (h : SlotRep entry pool q) :
    (entry.getD {}).Holds pool q := by
  cases entry with
  | none => rw [show q = [] from h]; exact PriceLevel.holds_empty
  | some level => exact h.1

/-- The empty book is represented by the empty list. -/
theorem rep_init : init.Rep [] where
  live := ObjectPool.live_init (by decide)
  map := by simp [init]
  slots s t := by cases s <;> simp [init, levels, SlotRep, queueAt]
  display := by simp [view]

namespace Stored

/-- Listed orders are told apart by their ids. -/
theorem id_inj (h : b.Stored ps) {p q : Ptr} (hp : p ∈ ps) (hq : q ∈ ps)
    (he : (b.pool.get p).id = (b.pool.get q).id) : p = q := by
  have h1 := (h.map _ p).mpr ⟨hp, rfl⟩
  have h2 := (h.map _ q).mpr ⟨hq, he.symm⟩
  exact Option.some.inj (h1.symm.trans h2)

/-- An id is missing from the map exactly when no resting order carries it. -/
theorem getOrder_eq_none_iff (h : b.Stored ps) {id : OrderId} :
    b.orderMap.lookup id = none ↔ ∀ o ∈ (b.view ps).orders, o.id ≠ id := by
  rw [Option.eq_none_iff_forall_ne_some]
  simp only [view, List.mem_map, forall_exists_index, and_imp, forall_apply_eq_imp_iff₂,
    Order.id_unlink, ne_eq, h.map, not_and]

/-- Every depth counter is a 32-bit value. -/
theorem wrapped (h : b.Stored ps) (s : Bool) (t : Int) :
    toInt32 ((b.view ps).total s t) = (b.view ps).total s t := by
  have hslot := h.slots s t
  simp only [view]
  cases hl : (b.levels s).lookup t with
  | none => rfl
  | some level =>
    rw [hl] at hslot
    exact hslot.2.2

/-- An id names a listed order exactly when the id map finds its slot. -/
theorem lookup_of_mem (h : b.Stored ps) {o : Order} (ho : o ∈ (b.view ps).orders) :
    ∃ p ∈ ps, b.orderMap.lookup o.id = some p ∧ (b.pool.get p).unlink = o := by
  obtain ⟨p, hp, rfl⟩ := mem_orders.mp ho
  exact ⟨p, hp, (h.map _ _).mpr ⟨hp, rfl⟩, rfl⟩

/-- The id map has one key for each listed slot. -/
theorem totalOrders_eq (h : b.Stored ps) : b.totalOrders = ps.length := by
  have hkeys : b.orderMap.keys.Perm (ps.map fun p => (b.pool.get p).id) := by
    rw [List.perm_ext_iff_of_nodup b.orderMap.keys_nodup
      (h.live.nodup.map_on fun p hp q hq he => h.id_inj hp hq he)]
    intro id
    rw [← AList.mem_keys, ← AList.lookup_isSome, Option.isSome_iff_exists]
    simp only [h.map, List.mem_map]
  have hlen := hkeys.length_eq
  rwa [List.length_map, AList.keys, List.keys, List.length_map] at hlen

end Stored

end OrderBook

end LiquidityArena

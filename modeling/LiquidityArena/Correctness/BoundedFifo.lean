import LiquidityArena.Engine.SpscQueue

/-!
# The queue is a bounded first-in-first-out queue

While a push has found room, pops can only make more; while a pop has found an item,
pushes can only add others. So what a thread knows about the other's index stays true
until it stores its own.
-/

namespace LiquidityArena

namespace Threads

variable {α : Type} {c : Nat} {t t' : Threads α} {items : List α}

/-- What the producer knows in the middle of a push. -/
def ProducerKnows (t : Threads α) (items : List α) : PushStep α → Prop
  | .idle => True
  | .loadRead _ writePos => writePos = t.queue.writeIdx
  | .writeSlot _ writePos =>
    writePos = t.queue.writeIdx ∧ items.length + 1 < t.queue.buffer.length
  | .storeWrite item writePos =>
    writePos = t.queue.writeIdx ∧ items.length + 1 < t.queue.buffer.length ∧
      t.queue.buffer[writePos]? = some item

/-- What the consumer knows in the middle of a pop. -/
def ConsumerKnows (t : Threads α) (items : List α) : PopStep α → Prop
  | .idle => True
  | .loadWrite readPos => readPos = t.queue.readIdx
  | .readSlot readPos => readPos = t.queue.readIdx ∧ items ≠ []
  | .storeRead item readPos => readPos = t.queue.readIdx ∧ items.head? = some item

/-- The queue holds what was pushed and not popped, and the threads know where they are. -/
structure Inv (c : Nat) (t : Threads α) (items : List α) : Prop where
  size : t.queue.buffer.length = c + 1
  holds : Ring.Holds t.queue.buffer t.queue.readIdx t.queue.writeIdx items
  fifo : t.pushed = t.popped ++ items
  producer : t.ProducerKnows items t.producer
  consumer : t.ConsumerKnows items t.consumer
  full : ∀ n ∈ t.pushFailures, n = c
  empty : ∀ n ∈ t.popFailures, n = 0

private theorem inv_init [Inhabited α] (c : Nat) :
    Inv c { queue := (SpscQueue.init c : SpscQueue α) } [] where
  size := List.length_replicate ..
  holds := ⟨by simp [SpscQueue.init], by simp [SpscQueue.init], by simp [SpscQueue.init], by simp⟩
  fifo := rfl
  producer := trivial
  consumer := trivial
  full := by simp
  empty := by simp

namespace Inv

private theorem contents_eq (h : Inv c t items) : t.queue.contents = items := h.holds.contents_eq

/-- A step of a push: the items stay, or the pushed one is added. -/
theorem produce (h : Inv c t items) (hstep : t.produce = some t') : ∃ items', Inv c t' items' := by
  have hproducer := h.producer
  rw [Threads.produce] at hstep
  split at hstep
  · cases hstep
  · -- the read index is loaded
    rename_i item writePos hpc
    rw [hpc] at hproducer
    obtain rfl : writePos = t.queue.writeIdx := hproducer
    split_ifs at hstep with hfull
    · obtain rfl := Option.some.inj hstep
      have hlength : items.length = c := by
        have hsize := h.holds.full_iff.mp hfull
        rw [h.size] at hsize
        exact Nat.succ.inj hsize
      refine ⟨items, h.size, h.holds, h.fifo, trivial, h.consumer, fun n hn => ?_, h.empty⟩
      rcases List.mem_append.mp hn with hn | hn
      · exact h.full n hn
      · rw [List.mem_singleton.mp hn, h.contents_eq, hlength]
    · obtain rfl := Option.some.inj hstep
      have hroom : items.length + 1 < t.queue.buffer.length :=
        Nat.lt_of_le_of_ne h.holds.length_lt fun heq => hfull (h.holds.full_iff.mpr heq)
      exact ⟨items, h.size, h.holds, h.fifo, ⟨rfl, hroom⟩, h.consumer, h.full, h.empty⟩
  · -- the slot is written
    rename_i item writePos hpc
    rw [hpc] at hproducer
    obtain ⟨rfl, hroom⟩ := hproducer
    obtain rfl := Option.some.inj hstep
    have hlength : (t.queue.buffer.set t.queue.writeIdx item).length = t.queue.buffer.length :=
      List.length_set ..
    refine ⟨items, hlength.trans h.size, h.holds.set item, h.fifo, ?_, h.consumer, h.full, h.empty⟩
    exact ⟨rfl, hroom.trans_eq hlength.symm, List.getElem?_set_self h.holds.write_lt⟩
  · -- the write index is stored
    rename_i item writePos hpc
    rw [hpc] at hproducer
    obtain ⟨rfl, hroom, hslot⟩ := hproducer
    obtain rfl := Option.some.inj hstep
    refine ⟨items ++ [item], h.size, h.holds.push hroom hslot, ?_, trivial, ?_, h.full, h.empty⟩
    · exact (congrArg (· ++ [item]) h.fifo).trans (List.append_assoc ..)
    · have hconsumer := h.consumer
      change ConsumerKnows _ _ t.consumer
      revert hconsumer
      cases t.consumer with
      | idle => exact fun _ => trivial
      | loadWrite readPos => exact id
      | readSlot readPos => exact fun ⟨hpos, _⟩ => ⟨hpos, by simp⟩
      | storeRead first readPos =>
        exact fun ⟨hpos, hhead⟩ => ⟨hpos, by rw [List.head?_append, hhead]; rfl⟩

/-- A step of a pop: the items stay, or the first one is taken. -/
theorem consume (h : Inv c t items) (hstep : t.consume = some t') : ∃ items', Inv c t' items' := by
  have hconsumer := h.consumer
  rw [Threads.consume] at hstep
  split at hstep
  · cases hstep
  · -- the write index is loaded
    rename_i readPos hpc
    rw [hpc] at hconsumer
    obtain rfl : readPos = t.queue.readIdx := hconsumer
    split_ifs at hstep with hempty
    · obtain rfl := Option.some.inj hstep
      refine ⟨items, h.size, h.holds, h.fifo, h.producer, trivial, h.full, fun n hn => ?_⟩
      rcases List.mem_append.mp hn with hn | hn
      · exact h.empty n hn
      · rw [List.mem_singleton.mp hn, h.contents_eq, h.holds.empty_iff.mp hempty]
        rfl
    · obtain rfl := Option.some.inj hstep
      exact ⟨items, h.size, h.holds, h.fifo, h.producer,
        ⟨rfl, fun hnil => hempty (h.holds.empty_iff.mpr hnil)⟩, h.full, h.empty⟩
  · -- the slot is read
    rename_i readPos hpc
    rw [hpc] at hconsumer
    obtain ⟨rfl, hitems⟩ := hconsumer
    obtain ⟨item, hslot, rfl⟩ := Option.map_eq_some_iff.mp hstep
    obtain ⟨first, rest, rfl⟩ := List.exists_cons_of_ne_nil hitems
    have hfirst := h.holds.pop.1
    refine ⟨first :: rest, h.size, h.holds, h.fifo, h.producer, ⟨rfl, ?_⟩, h.full, h.empty⟩
    rw [List.head?_cons, ← hfirst, hslot]
  · -- the read index is stored
    rename_i item readPos hpc
    rw [hpc] at hconsumer
    obtain ⟨rfl, hhead⟩ := hconsumer
    obtain rfl := Option.some.inj hstep
    obtain ⟨rest, rfl⟩ := List.head?_eq_some_iff.mp hhead
    refine ⟨rest, h.size, h.holds.pop.2, ?_, ?_, trivial, h.full, h.empty⟩
    · exact h.fifo.trans (List.append_cons ..)
    · have hproducer := h.producer
      change ProducerKnows _ _ t.producer
      revert hproducer
      cases t.producer with
      | idle => exact fun _ => trivial
      | loadRead pushed writePos => exact id
      | writeSlot pushed writePos =>
        exact fun ⟨hpos, hroom⟩ => ⟨hpos, (Nat.lt_succ_self _).trans hroom⟩
      | storeWrite pushed writePos =>
        exact fun ⟨hpos, hroom, hslot⟩ => ⟨hpos, (Nat.lt_succ_self _).trans hroom, hslot⟩

/-- One atomic step of either thread. -/
theorem step (h : Inv c t items) {a : ThreadAction α} (hstep : t.step a = some t') :
    ∃ items', Inv c t' items' := by
  cases a with
  | push item =>
    rw [Threads.step] at hstep
    split at hstep
    · obtain rfl := Option.some.inj hstep
      exact ⟨items, h.size, h.holds, h.fifo, rfl, h.consumer, h.full, h.empty⟩
    · cases hstep
  | produce => exact h.produce hstep
  | pop =>
    rw [Threads.step] at hstep
    split at hstep
    · obtain rfl := Option.some.inj hstep
      exact ⟨items, h.size, h.holds, h.fifo, h.producer, rfl, h.full, h.empty⟩
    · cases hstep
  | consume => exact h.consume hstep

end Inv

end Threads

/-- Under every interleaving of the atomic steps of one producer and one consumer, the values
popped are the first ones pushed and the rest are in the queue, in order and never more than its
capacity; the slots being written and read are in the buffer and not the same; and a call fails
only if the queue was full, or empty, when it loaded the other index. -/
theorem spsc_bounded_fifo {α : Type} [Inhabited α] (c : Nat) {actions : List (ThreadAction α)}
    {t : Threads α} (hrun : Machine.run Threads.step { queue := .init c } actions = some t) :
    t.pushed = t.popped ++ t.queue.contents ∧ t.queue.contents.length ≤ c ∧
      (∀ item writePos, t.producer = .writeSlot item writePos →
        writePos < t.queue.buffer.length ∧ t.consumer ≠ .readSlot writePos) ∧
      (∀ readPos, t.consumer = .readSlot readPos → readPos < t.queue.buffer.length) ∧
      (∀ n ∈ t.pushFailures, n = c) ∧ ∀ n ∈ t.popFailures, n = 0 := by
  obtain ⟨items, h⟩ := Machine.run_invariant (fun t => ∃ items, Threads.Inv c t items)
    (fun ⟨_, h⟩ hstep => h.step hstep) ⟨[], Threads.inv_init c⟩ hrun
  have hproducer := h.producer
  have hconsumer := h.consumer
  rw [h.contents_eq]
  refine ⟨h.fifo, ?_, fun item writePos hpc => ?_, fun readPos hpc => ?_, h.full, h.empty⟩
  · have hlt := h.holds.length_lt
    rw [h.size] at hlt
    exact Nat.lt_succ_iff.mp hlt
  · rw [hpc] at hproducer
    obtain ⟨rfl, -⟩ := hproducer
    refine ⟨h.holds.write_lt, fun hread => ?_⟩
    rw [hread] at hconsumer
    exact hconsumer.2 (h.holds.empty_iff.mp hconsumer.1.symm)
  · rw [hpc] at hconsumer
    exact hconsumer.1 ▸ h.holds.read_lt

/-- Capacity one: a pop looks before the first push has stored its index, and a second push
finds the queue full. -/
theorem spsc_bounded_fifo_capacity_one :
    ∃ t : Threads Nat, Machine.run Threads.step { queue := .init 1 }
        [.push 7, .produce, .produce, .pop, .consume, .produce, .push 8, .produce, .pop, .consume,
          .consume, .consume] = some t ∧
      t.pushFailures = [1] ∧ t.popFailures = [0] ∧ t.popped = [7] ∧
      t.pushed = t.popped ++ t.queue.contents := by
  have hruns : ∃ t : Threads Nat, Machine.run Threads.step { queue := .init 1 }
      [.push 7, .produce, .produce, .pop, .consume, .produce, .push 8, .produce, .pop, .consume,
        .consume, .consume] = some t ∧
      t.pushFailures = [1] ∧ t.popFailures = [0] ∧ t.popped = [7] := ⟨_, rfl, rfl, rfl, rfl⟩
  obtain ⟨t, hrun, hfull, hempty, hpopped⟩ := hruns
  exact ⟨t, hrun, hfull, hempty, hpopped, (spsc_bounded_fifo 1 hrun).1⟩

end LiquidityArena

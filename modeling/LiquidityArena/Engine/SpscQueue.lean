import LiquidityArena.Lib.Ring
import LiquidityArena.Lib.Machine

/-!
# The queue between the threads

A lock-free queue for one producer and one consumer over a circular buffer with one slot
more than its capacity. A call of `push` or `pop` takes several atomic steps: it loads its
own index, loads the other index, accesses a slot and stores its own index. The steps of
the two threads interleave in any order. Recorded are the values of the successful calls
and how many items were unread when a call that fails looked.
-/

namespace LiquidityArena

/-- The shared part of the queue. -/
structure SpscQueue (α : Type) where
  buffer : List α
  writeIdx : Nat := 0
  readIdx : Nat := 0

namespace SpscQueue

variable {α : Type}

/-- An empty queue; the buffer has one slot more than the capacity. -/
def init [Inhabited α] (capacity : Nat) : SpscQueue α :=
  { buffer := List.replicate (capacity + 1) default }

/-- The items stored and not yet read. -/
def contents (q : SpscQueue α) : List α := Ring.contents q.buffer q.readIdx q.writeIdx

end SpscQueue

/-- What the producer does next in a call of `push`. -/
inductive PushStep (α : Type) where
  | idle
  | loadRead (item : α) (writePos : Nat)
  | writeSlot (item : α) (writePos : Nat)
  | storeWrite (item : α) (writePos : Nat)

/-- What the consumer does next in a call of `pop`. -/
inductive PopStep (α : Type) where
  | idle
  | loadWrite (readPos : Nat)
  | readSlot (readPos : Nat)
  | storeRead (item : α) (readPos : Nat)

/-- The queue, the two threads and the record of their calls. -/
structure Threads (α : Type) where
  queue : SpscQueue α
  producer : PushStep α := .idle
  consumer : PopStep α := .idle
  pushed : List α := []
  popped : List α := []
  pushFailures : List Nat := []
  popFailures : List Nat := []

/-- A step of a thread: it calls `push` or `pop`, which loads its own index, or goes on. -/
inductive ThreadAction (α : Type) where
  | push (item : α)
  | produce
  | pop
  | consume

namespace Threads

variable {α : Type}

/-- Go on with a call of `push`. -/
def produce (t : Threads α) : Option (Threads α) :=
  match t.producer with
  | .idle => none
  | .loadRead item writePos =>
    if (writePos + 1) % t.queue.buffer.length = t.queue.readIdx then
      some { t with
        producer := .idle
        pushFailures := t.pushFailures ++ [t.queue.contents.length] }
    else some { t with producer := .writeSlot item writePos }
  | .writeSlot item writePos =>
    some { t with
      queue := { t.queue with buffer := t.queue.buffer.set writePos item }
      producer := .storeWrite item writePos }
  | .storeWrite item writePos =>
    some { t with
      queue := { t.queue with writeIdx := (writePos + 1) % t.queue.buffer.length }
      producer := .idle
      pushed := t.pushed ++ [item] }

/-- Go on with a call of `pop`; a slot outside the buffer cannot be read. -/
def consume (t : Threads α) : Option (Threads α) :=
  match t.consumer with
  | .idle => none
  | .loadWrite readPos =>
    if readPos = t.queue.writeIdx then
      some { t with
        consumer := .idle
        popFailures := t.popFailures ++ [t.queue.contents.length] }
    else some { t with consumer := .readSlot readPos }
  | .readSlot readPos =>
    (t.queue.buffer[readPos]?).map fun item => { t with consumer := .storeRead item readPos }
  | .storeRead item readPos =>
    some { t with
      queue := { t.queue with readIdx := (readPos + 1) % t.queue.buffer.length }
      consumer := .idle
      popped := t.popped ++ [item] }

/-- One atomic step, if the thread can take it. -/
def step (t : Threads α) : ThreadAction α → Option (Threads α)
  | .push item =>
    match t.producer with
    | .idle => some { t with producer := .loadRead item t.queue.writeIdx }
    | _ => none
  | .produce => t.produce
  | .pop =>
    match t.consumer with
    | .idle => some { t with consumer := .loadWrite t.queue.readIdx }
    | _ => none
  | .consume => t.consume

end Threads

end LiquidityArena

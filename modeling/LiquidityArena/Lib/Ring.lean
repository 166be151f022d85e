import Mathlib.Tactic

/-!
# Circular buffers

A buffer holds the items from a slot `r` up to, and without, a slot `w`, where the slots
follow each other around the end of the buffer. One slot always stays free, so that the
buffer is empty exactly when the two are the same.
-/

namespace Ring

variable {α : Type*} {buffer : List α} {r w k n : Nat} {items : List α} {a : α}

/-- The buffer holds the items from `r` to `w`. -/
structure Holds (buffer : List α) (r w : Nat) (items : List α) : Prop where
  read_lt : r < buffer.length
  length_lt : items.length < buffer.length
  write_eq : w = (r + items.length) % buffer.length
  slot : ∀ k < items.length, buffer[(r + k) % buffer.length]? = items[k]?

/-- Slots at different distances are different. -/
theorem slot_inj {size : Nat} (hk : k < size) (hn : n < size)
    (h : (r + k) % size = (r + n) % size) : k = n := by
  have hmod : k ≡ n [MOD size] := Nat.ModEq.add_left_cancel' r h
  rwa [Nat.ModEq, Nat.mod_eq_of_lt hk, Nat.mod_eq_of_lt hn] at hmod

namespace Holds

/-- A ring in use has at least one slot. -/
theorem size_pos (h : Holds buffer r w items) : 0 < buffer.length :=
  (Nat.zero_le _).trans_lt h.read_lt

/-- The write index is inside the buffer. -/
theorem write_lt (h : Holds buffer r w items) : w < buffer.length :=
  h.write_eq ▸ Nat.mod_lt _ h.size_pos

/-- The first slot is at distance zero. -/
theorem read_eq (h : Holds buffer r w items) : r = (r + 0) % buffer.length :=
  (Nat.mod_eq_of_lt h.read_lt).symm

/-- The slot after `w`. -/
theorem next_eq (h : Holds buffer r w items) :
    (w + 1) % buffer.length = (r + (items.length + 1)) % buffer.length := by
  rw [h.write_eq, Nat.mod_add_mod, Nat.add_assoc]

/-- The indices meet exactly when the ring is empty. -/
theorem empty_iff (h : Holds buffer r w items) : r = w ↔ items = [] := by
  rw [← List.length_eq_zero_iff]
  constructor
  · intro heq
    exact (slot_inj h.size_pos h.length_lt (h.read_eq.symm.trans (heq.trans h.write_eq))).symm
  · intro hnil
    rw [h.write_eq, hnil]
    exact h.read_eq

/-- The slot after `w` is the first one exactly when only one slot is free. -/
theorem full_iff (h : Holds buffer r w items) :
    (w + 1) % buffer.length = r ↔ items.length + 1 = buffer.length := by
  rw [h.next_eq]
  constructor
  · intro heq
    by_contra hne
    have hlt : items.length + 1 < buffer.length := Nat.lt_of_le_of_ne h.length_lt hne
    exact absurd (slot_inj hlt h.size_pos (heq.trans h.read_eq)) (Nat.succ_ne_zero _)
  · intro heq
    rw [heq, Nat.add_mod_right, Nat.mod_eq_of_lt h.read_lt]

/-- Writing the free slot `w` does not touch the items. -/
theorem set (h : Holds buffer r w items) (a : α) : Holds (buffer.set w a) r w items where
  read_lt := by rw [List.length_set]; exact h.read_lt
  length_lt := by rw [List.length_set]; exact h.length_lt
  write_eq := by rw [List.length_set]; exact h.write_eq
  slot k hk := by
    have hne : w ≠ (r + k) % buffer.length := fun heq =>
      hk.ne (slot_inj (hk.trans h.length_lt) h.length_lt (heq.symm.trans h.write_eq))
    rw [List.length_set, List.getElem?_set_ne hne]
    exact h.slot k hk

/-- Moving `w` on adds the item it stood at. -/
theorem push (h : Holds buffer r w items) (hroom : items.length + 1 < buffer.length)
    (hslot : buffer[w]? = some a) :
    Holds buffer r ((w + 1) % buffer.length) (items ++ [a]) where
  read_lt := h.read_lt
  length_lt := by rw [List.length_append]; exact hroom
  write_eq := by rw [h.next_eq, List.length_append]; rfl
  slot k hk := by
    rw [List.length_append, List.length_singleton] at hk
    rcases Nat.lt_succ_iff_lt_or_eq.mp hk with hk | rfl
    · rw [List.getElem?_append_left hk, h.slot k hk]
    · rw [List.getElem?_concat_length, ← h.write_eq, hslot]

/-- The slot `r` holds the first item, and moving `r` on removes it. -/
theorem pop (h : Holds buffer r w (a :: items)) :
    buffer[r]? = some a ∧ Holds buffer ((r + 1) % buffer.length) w items := by
  have hfirst := h.slot 0 (Nat.succ_pos _)
  rw [← h.read_eq] at hfirst
  refine ⟨hfirst, Nat.mod_lt _ h.size_pos, (Nat.lt_succ_self _).trans h.length_lt, ?_,
    fun k hk => ?_⟩
  · rw [h.write_eq, Nat.mod_add_mod, List.length_cons, Nat.add_assoc, Nat.add_comm 1]
  · rw [Nat.mod_add_mod, Nat.add_assoc, Nat.add_comm 1]
    exact h.slot (k + 1) (Nat.succ_lt_succ hk)

end Holds

/-- The number of slots from `r` to `w`. -/
def count (size r w : Nat) : Nat := (w + size - r) % size

/-- The items from `r` to `w`. -/
def contents (buffer : List α) (r w : Nat) : List α :=
  (List.range (count buffer.length r w)).filterMap fun k => buffer[(r + k) % buffer.length]?

namespace Holds

/-- The index distance is the number of items. -/
theorem count_eq (h : Holds buffer r w items) : count buffer.length r w = items.length := by
  have hr := h.read_lt
  have hlt := h.length_lt
  rw [count, h.write_eq]
  by_cases hwrap : r + items.length < buffer.length
  · rw [Nat.mod_eq_of_lt hwrap, show r + items.length + buffer.length - r =
      items.length + buffer.length by omega, Nat.add_mod_right, Nat.mod_eq_of_lt hlt]
  · have hmod : (r + items.length) % buffer.length = r + items.length - buffer.length := by
      rw [Nat.mod_eq_sub_mod (by omega), Nat.mod_eq_of_lt (by omega)]
    rw [hmod, show r + items.length - buffer.length + buffer.length - r = items.length by omega,
      Nat.mod_eq_of_lt hlt]

/-- Reading from one index to the other gives the items. -/
theorem contents_eq (h : Holds buffer r w items) : contents buffer r w = items := by
  rw [contents, h.count_eq]
  have hall : ∀ n ≤ items.length, (List.range n).filterMap
      (fun k => buffer[(r + k) % buffer.length]?) = items.take n := by
    intro n hn
    induction n with
    | zero => rfl
    | succ n ih =>
      rw [List.range_succ, List.filterMap_append, ih (Nat.le_of_succ_le hn), List.take_add_one,
        ← h.slot n hn, List.filterMap_cons]
      cases buffer[(r + n) % buffer.length]? <;> rfl
  rw [hall _ le_rfl, List.take_length]

end Holds

end Ring

import Mathlib.Data.List.Nodup
import Mathlib.Data.List.Range
import Mathlib.Tactic

/-!
# Numbered tickets

Tickets get consecutive numbers and wait in a queue until they are handed over. One that is
handed over is active until it is retired, or withdrawn and then cancelled. So a ticket is
handed over once and cancelled at most once, and afterwards.
-/

namespace Tickets

/-- What is on record: a ticket is handed over or cancelled. -/
inductive Entry where
  | hand (n : Int)
  | cancel (n : Int)
  deriving DecidableEq, Repr

/-- The ticket that an entry is about. -/
def Entry.number : Entry → Int
  | .hand n => n
  | .cancel n => n

/-- An entry may come before another: a ticket is handed over and then cancelled. -/
def Entry.Before (e e' : Entry) : Prop :=
  e.number = e'.number → (∃ n, e = .hand n) ∧ ∃ n, e' = .cancel n

/-- The tickets handed over on record. -/
def handed (log : List Entry) : List Int :=
  log.filterMap fun
    | .hand n => some n
    | .cancel _ => none

/-- The tickets cancelled on record. -/
def cancelled (log : List Entry) : List Int :=
  log.filterMap fun
    | .hand _ => none
    | .cancel n => some n

/-- The next number, the tickets in each state, and the record. -/
structure Counter where
  next : Int
  queued : List Int
  active : List Int
  withdrawn : List Int
  log : List Entry

namespace Counter

/-- A new number joins the queue. -/
def issue (s : Counter) : Counter := { s with next := s.next + 1, queued := s.queued ++ [s.next] }

/-- The numbers in the queue are handed over and active. -/
def hand (s : Counter) : Counter :=
  { s with queued := [], active := s.active ++ s.queued, log := s.log ++ s.queued.map .hand }

/-- The active numbers are withdrawn. -/
def withdraw (s : Counter) : Counter :=
  { s with active := [], withdrawn := s.withdrawn ++ s.active }

/-- The numbers that were withdrawn are cancelled. -/
def cancel (s : Counter) : Counter :=
  { s with withdrawn := [], log := s.log ++ s.withdrawn.map .cancel }

end Counter

/-- The numbers from one up to another. -/
def numbers (first next : Int) : List Int :=
  (List.range (next - first).toNat).map fun (i : Nat) => first + i

/-- Every cancelled ticket was handed over before. -/
def Ordered (log : List Entry) : Prop :=
  ∀ before n after, log = before ++ .cancel n :: after → n ∈ handed before

/-- What holds of a counter whose first number is given. -/
structure Valid (first : Int) (s : Counter) : Prop where
  le : first ≤ s.next
  numbered : handed s.log ++ s.queued = numbers first s.next
  once : (cancelled s.log ++ s.withdrawn ++ s.active).Nodup
  known : ∀ n ∈ s.withdrawn ++ s.active, n ∈ handed s.log
  ordered : Ordered s.log

@[simp] theorem handed_append (log log' : List Entry) :
    handed (log ++ log') = handed log ++ handed log' := List.filterMap_append

@[simp] theorem cancelled_append (log log' : List Entry) :
    cancelled (log ++ log') = cancelled log ++ cancelled log' := List.filterMap_append

@[simp] theorem handed_hand (ns : List Int) : handed (ns.map .hand) = ns := by
  simp [handed, List.filterMap_map]

@[simp] theorem handed_cancel (ns : List Int) : handed (ns.map .cancel) = [] := by
  simp [handed, List.filterMap_map]

@[simp] theorem cancelled_hand (ns : List Int) : cancelled (ns.map .hand) = [] := by
  simp [cancelled, List.filterMap_map]

@[simp] theorem cancelled_cancel (ns : List Int) : cancelled (ns.map .cancel) = ns := by
  simp [cancelled, List.filterMap_map]

/-- A number is cancelled when its cancel is logged. -/
theorem mem_cancelled {log : List Entry} {n : Int} : n ∈ cancelled log ↔ .cancel n ∈ log := by
  rw [cancelled, List.mem_filterMap]
  constructor
  · rintro ⟨entry, hentry, heq⟩
    cases entry with
    | hand m => cases heq
    | cancel m => exact Option.some.inj heq ▸ hentry
  · exact fun h => ⟨_, h, rfl⟩

/-- A number is handed over when its hand-over is logged. -/
theorem mem_handed {log : List Entry} {n : Int} : n ∈ handed log ↔ .hand n ∈ log := by
  rw [handed, List.mem_filterMap]
  constructor
  · rintro ⟨entry, hentry, heq⟩
    cases entry with
    | hand m => exact Option.some.inj heq ▸ hentry
    | cancel m => cases heq
  · exact fun h => ⟨_, h, rfl⟩

section Numbers

variable {first next n : Int}

/-- No number lies between a ticket and itself. -/
theorem numbers_self (first : Int) : numbers first first = [] := by simp [numbers]

/-- Issuing adds the next number at the end. -/
theorem numbers_succ (h : first ≤ next) :
    numbers first (next + 1) = numbers first next ++ [next] := by
  have hlength : (next + 1 - first).toNat = (next - first).toNat + 1 := by omega
  rw [numbers, hlength, List.range_succ, List.map_append, List.map_singleton]
  congr 2
  omega

/-- The issued numbers lie between the first and the next. -/
theorem mem_numbers : n ∈ numbers first next ↔ first ≤ n ∧ n < next := by
  rw [numbers, List.mem_map]
  constructor
  · rintro ⟨i, hi, rfl⟩
    have hlt := List.mem_range.mp hi
    omega
  · rintro ⟨hfirst, hlt⟩
    exact ⟨(n - first).toNat, List.mem_range.mpr (by omega), by omega⟩

/-- No number is issued twice. -/
theorem nodup_numbers (first next : Int) : (numbers first next).Nodup :=
  List.Nodup.map (fun _ _ h => by simpa using h) List.nodup_range

end Numbers

/-- A record stays in order when tickets are cancelled that have been handed over. -/
theorem Ordered.append {log new : List Entry} (h : Ordered log)
    (hnew : ∀ n, .cancel n ∈ new → n ∈ handed log) : Ordered (log ++ new) := by
  intro before n after heq
  rcases List.append_eq_append_iff.mp heq with ⟨more, hbefore, hnew'⟩ | ⟨more, hlog, hafter⟩
  · rw [hbefore, handed_append]
    exact List.mem_append_left _ (hnew n (hnew' ▸ List.mem_append_right _ List.mem_cons_self))
  · cases more with
    | nil =>
      rw [List.append_nil] at hlog
      rw [List.nil_append] at hafter
      rw [← hlog]
      exact hnew n (hafter ▸ List.mem_cons_self)
    | cons entry more =>
      obtain ⟨rfl, -⟩ := List.cons.inj hafter
      exact h before n more hlog

/-- Every entry about a ticket is about one that has been handed over. -/
theorem Ordered.number_mem {log : List Entry} (h : Ordered log) {e : Entry} (he : e ∈ log) :
    e.number ∈ handed log := by
  cases e with
  | hand n => exact mem_handed.mpr he
  | cancel n =>
    obtain ⟨before, after, rfl⟩ := List.append_of_mem he
    rw [handed_append]
    exact List.mem_append_left _ (h before n after rfl)

/-- Two entries about a ticket are its handing over and, later, its cancellation. -/
theorem Ordered.pairwise_before {log : List Entry} (h : Ordered log) (hhanded : (handed log).Nodup)
    (hcancelled : (cancelled log).Nodup) : log.Pairwise Entry.Before := by
  induction log using List.reverseRecOn with
  | nil => exact List.Pairwise.nil
  | append_singleton log e ih =>
    rw [handed_append, List.nodup_append] at hhanded
    rw [cancelled_append, List.nodup_append] at hcancelled
    have hprior : Ordered log := fun before n after heq =>
      h before n (after ++ [e]) (by rw [heq, List.append_assoc, List.cons_append])
    refine List.pairwise_append.mpr
      ⟨ih hprior hhanded.1 hcancelled.1, List.pairwise_singleton _ _, fun e' he' e'' he'' => ?_⟩
    rw [List.mem_singleton.mp he'']
    intro hnumber
    cases e with
    | hand n =>
      have hagain := hprior.number_mem he'
      rw [hnumber] at hagain
      exact absurd rfl (hhanded.2.2 n hagain n (mem_handed.mpr List.mem_cons_self))
    | cancel n =>
      refine ⟨?_, n, rfl⟩
      cases e' with
      | hand m => exact ⟨m, rfl⟩
      | cancel m =>
        obtain rfl : m = n := hnumber
        exact absurd rfl
          (hcancelled.2.2 m (mem_cancelled.mpr he') m (mem_cancelled.mpr List.mem_cons_self))

/-- In a log in order no number is handed over twice. -/
theorem nodup_handed {log : List Entry} (h : log.Pairwise Entry.Before) : (handed log).Nodup := by
  refine List.pairwise_filterMap.mpr (h.imp fun {e e'} hbefore n hn n' hn' heq => ?_)
  cases e with
  | cancel m => cases hn
  | hand m =>
    cases e' with
    | cancel m' => cases hn'
    | hand m' =>
      have hnumber : m = m' := (Option.some.inj hn).trans (heq.trans (Option.some.inj hn').symm)
      obtain ⟨-, k, hcancel⟩ := hbefore hnumber
      cases hcancel

/-- In a log in order no number is cancelled twice. -/
theorem nodup_cancelled {log : List Entry} (h : log.Pairwise Entry.Before) :
    (cancelled log).Nodup := by
  refine List.pairwise_filterMap.mpr (h.imp fun {e e'} hbefore n hn n' hn' heq => ?_)
  cases e with
  | hand m => cases hn
  | cancel m =>
    cases e' with
    | hand m' => cases hn'
    | cancel m' =>
      have hnumber : m = m' := (Option.some.inj hn).trans (heq.trans (Option.some.inj hn').symm)
      obtain ⟨⟨k, hhand⟩, -⟩ := hbefore hnumber
      cases hhand

namespace Valid

variable {first : Int} {s : Counter}

/-- A counter that issued nothing is valid. -/
theorem init (first : Int) : Valid first ⟨first, [], [], [], []⟩ where
  le := le_rfl
  numbered := (numbers_self first).symm
  once := List.nodup_nil
  known := fun n hn => absurd hn List.not_mem_nil
  ordered := fun before n after heq => by simp at heq

/-- A ticket that was handed over is below the next number. -/
theorem handed_lt (h : Valid first s) {n : Int} (hn : n ∈ handed s.log) :
    first ≤ n ∧ n < s.next :=
  mem_numbers.mp (h.numbered ▸ List.mem_append_left _ hn)

/-- Issuing a number keeps the counter valid. -/
theorem issue (h : Valid first s) : Valid first s.issue :=
  { h with
    le := h.le.trans (Int.le_add_one le_rfl)
    numbered := by
      rw [Counter.issue, numbers_succ h.le, ← h.numbered, List.append_assoc] }

/-- Handing the waiting numbers over keeps the counter valid. -/
theorem hand (h : Valid first s) : Valid first s.hand where
  le := h.le
  numbered := by
    rw [Counter.hand, handed_append, handed_hand, List.append_nil]
    exact h.numbered
  once := by
    have hqueued : s.queued.Nodup :=
      (List.nodup_append.mp (h.numbered ▸ nodup_numbers first s.next)).2.1
    have hnew : ∀ n ∈ cancelled s.log ++ s.withdrawn ++ s.active, n ∉ s.queued := by
      intro n hn hq
      have hhanded : n ∈ handed s.log := by
        rw [List.append_assoc, List.mem_append] at hn
        rcases hn with hn | hn
        · obtain ⟨before, after, heq⟩ := List.append_of_mem (mem_cancelled.mp hn)
          rw [heq, handed_append]
          exact List.mem_append_left _ (h.ordered before n after heq)
        · exact h.known n hn
      have hdisjoint := (List.nodup_append.mp (h.numbered ▸ nodup_numbers first s.next)).2.2
      exact hdisjoint n hhanded n hq rfl
    rw [Counter.hand, cancelled_append, cancelled_hand, List.append_nil, ← List.append_assoc]
    refine List.nodup_append.mpr ⟨h.once, hqueued, ?_⟩
    rintro n hn m hm rfl
    exact hnew n hn hm
  known := by
    intro n hn
    rw [Counter.hand, handed_append, handed_hand]
    rw [Counter.hand, ← List.append_assoc] at hn
    rcases List.mem_append.mp hn with hn | hn
    · exact List.mem_append_left _ (h.known n hn)
    · exact List.mem_append_right _ hn
  ordered := h.ordered.append fun n hn => by simp at hn

/-- Listing the handed numbers for cancelling keeps the counter valid. -/
theorem withdraw (h : Valid first s) : Valid first s.withdraw :=
  { h with
    once := by
      rw [Counter.withdraw, List.append_nil, ← List.append_assoc]
      exact h.once
    known := by
      rw [Counter.withdraw, List.append_nil]
      exact h.known }

/-- Cancelling the listed numbers keeps the counter valid. -/
theorem cancel (h : Valid first s) : Valid first s.cancel where
  le := h.le
  numbered := by
    rw [Counter.cancel, handed_append, handed_cancel, List.append_nil]
    exact h.numbered
  once := by
    rw [Counter.cancel, cancelled_append, cancelled_cancel, List.append_nil]
    exact h.once
  known := by
    intro n hn
    rw [Counter.cancel, handed_append, handed_cancel, List.append_nil]
    exact h.known n (List.mem_append_right _ hn)
  ordered := h.ordered.append fun n hn => by
    have hwithdrawn : n ∈ s.withdrawn := by simpa using hn
    exact h.known n (List.mem_append_left _ hwithdrawn)

/-- Some of the active tickets are retired. -/
theorem retire (h : Valid first s) {active : List Int} (hactive : active.Sublist s.active) :
    Valid first { s with active := active } :=
  { h with
    once := h.once.sublist (hactive.append_left _)
    known := fun n hn => h.known n ((hactive.append_left _).subset hn) }

/-- A ticket that an entry is about is one of the counter's. -/
theorem number_lt (h : Valid first s) {e : Entry} (he : e ∈ s.log) :
    first ≤ e.number ∧ e.number < s.next := h.handed_lt (h.ordered.number_mem he)

/-- The log of a valid counter is in order. -/
theorem pairwise_before (h : Valid first s) : s.log.Pairwise Entry.Before := by
  have hhanded := h.numbered ▸ nodup_numbers first s.next
  have honce := h.once
  rw [List.append_assoc] at honce
  exact h.ordered.pairwise_before (List.nodup_append.mp hhanded).1 (List.nodup_append.mp honce).1

end Valid

/-- The common record of several counters is in order if those of the counters are and their
tickets have different numbers. -/
theorem pairwise_of_counters {α κ : Type*} [DecidableEq κ] {l : List α} (counter : α → κ)
    (entry : α → Entry)
    (hsame : ∀ a ∈ l, ((l.filter (counter · = counter a)).map entry).Pairwise Entry.Before)
    (hother : ∀ a ∈ l, ∀ b ∈ l, counter a ≠ counter b → (entry a).number ≠ (entry b).number) :
    (l.map entry).Pairwise Entry.Before := by
  induction l with
  | nil => exact List.Pairwise.nil
  | cons a l ih =>
    refine List.pairwise_cons.mpr ⟨fun e he hnumber => ?_, ih (fun b hb => ?_) fun b hb c hc =>
      hother b (List.mem_cons_of_mem a hb) c (List.mem_cons_of_mem a hc)⟩
    · obtain ⟨b, hb, rfl⟩ := List.mem_map.mp he
      by_cases hcounter : counter a = counter b
      · have hown := hsame a List.mem_cons_self
        rw [List.filter_cons_of_pos (by simp), List.map_cons, List.pairwise_cons] at hown
        refine hown.1 _ (List.mem_map_of_mem (List.mem_filter.mpr ⟨hb, ?_⟩)) hnumber
        exact decide_eq_true hcounter.symm
      · exact absurd hnumber (hother a List.mem_cons_self b (List.mem_cons_of_mem a hb) hcounter)
    · refine (hsame b (List.mem_cons_of_mem a hb)).sublist ?_
      exact ((List.sublist_cons_self a l).filter _).map entry

end Tickets

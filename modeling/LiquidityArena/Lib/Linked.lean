import Mathlib.Data.List.Basic
import Mathlib.Tactic

/-!
# Chains of cells linked through a heap

A heap is given only by its link functions, so nothing here depends on what a
cell stores. `Segment` describes a doubly linked run of cells between two outer
neighbours; `Chain` describes a singly linked run ending in a null link. Both
predicates read the links of their own cells and of no others, which is what
keeps separate chains over one heap independent.
-/

namespace Linked

variable {P : Type*} {prev next prev' next' : P → Option P}

/-- The cells are linked in both directions, the first one back to `before` and
the last one on to `after`. -/
def Segment (prev next : P → Option P) : Option P → List P → Option P → Prop
  | _, [], _ => True
  | before, p :: ps, after =>
    prev p = before ∧ next p = ps.head?.or after ∧ Segment prev next (some p) ps after

@[simp] theorem Segment.nil {before after : Option P} : Segment prev next before [] after := trivial

/-- A segment starts at its first node and continues behind it. -/
theorem segment_cons {before after : Option P} {p : P} {ps : List P} :
    Segment prev next before (p :: ps) after ↔
      prev p = before ∧ next p = ps.head?.or after ∧ Segment prev next (some p) ps after := Iff.rfl

/-- A segment reads no link outside its own cells. -/
theorem Segment.congr {before after : Option P} {ps : List P}
    (hp : ∀ p ∈ ps, prev' p = prev p) (hn : ∀ p ∈ ps, next' p = next p)
    (h : Segment prev next before ps after) : Segment prev' next' before ps after := by
  induction ps generalizing before with
  | nil => trivial
  | cons p ps ih =>
    obtain ⟨hprev, hnext, hrest⟩ := h
    refine ⟨(hp p (by simp)).trans hprev, (hn p (by simp)).trans hnext, ?_⟩
    exact ih (fun q hq => hp q (by simp [hq])) (fun q hq => hn q (by simp [hq])) hrest

/-- Two adjacent runs form one segment exactly when each sees the other's border cell. -/
theorem segment_append {before after : Option P} {ps qs : List P} :
    Segment prev next before (ps ++ qs) after ↔
      Segment prev next before ps (qs.head?.or after) ∧
        Segment prev next (ps.getLast?.or before) qs after := by
  induction ps generalizing before with
  | nil => simp
  | cons p ps ih =>
    have hlast : (p :: ps).getLast?.or before = ps.getLast?.or (some p) := by
      cases ps <;> simp [List.getLast?_cons]
    have hhead : ((ps ++ qs).head?).or after = ps.head?.or (qs.head?.or after) := by
      cases ps <;> simp
    simp only [List.cons_append, segment_cons, ih, hlast, hhead, and_assoc]

/-- Rewriting the last cell's forward link retargets the whole segment. -/
theorem Segment.retarget_after {before after after' : Option P} {ps : List P} {p : P}
    (h : Segment prev next before (ps ++ [p]) after)
    (hp : ∀ q ∈ ps ++ [p], prev' q = prev q) (hn : ∀ q ∈ ps, next' q = next q)
    (hlast : next' p = after') : Segment prev' next' before (ps ++ [p]) after' := by
  rw [segment_append] at h ⊢
  refine ⟨h.1.congr (fun q hq => hp q (by simp [hq])) hn, ?_⟩
  obtain ⟨hprev, -, -⟩ := h.2
  exact ⟨(hp p (by simp)).trans hprev, by simpa using hlast, trivial⟩

/-- Rewriting the first cell's backward link retargets the whole segment. -/
theorem Segment.retarget_before {before before' after : Option P} {ps : List P} {p : P}
    (h : Segment prev next before (p :: ps) after)
    (hp : ∀ q ∈ ps, prev' q = prev q) (hn : ∀ q ∈ p :: ps, next' q = next q)
    (hfirst : prev' p = before') : Segment prev' next' before' (p :: ps) after := by
  obtain ⟨-, hnext, hrest⟩ := h
  refine ⟨hfirst, (hn p (by simp)).trans hnext, ?_⟩
  exact hrest.congr hp fun q hq => hn q (by simp [hq])

/-- A cell joins the end of a list once it and the old last cell point at each other. -/
theorem Segment.push_back {ps : List P} {p : P} (hnd : ps.Nodup)
    (h : Segment prev next none ps none)
    (hprev : ∀ q ∈ ps, prev' q = prev q)
    (hnext : ∀ q ∈ ps, ps.getLast? ≠ some q → next' q = next q)
    (hlast : ∀ q, ps.getLast? = some q → next' q = some p)
    (hpp : prev' p = ps.getLast?) (hpn : next' p = none) :
    Segment prev' next' none (ps ++ [p]) none := by
  rw [segment_append]
  refine ⟨?_, by simpa using hpp, by simpa using hpn, trivial⟩
  rcases List.eq_nil_or_concat' ps with rfl | ⟨init, last, rfl⟩
  · trivial
  · have hne : ∀ q ∈ init, q ≠ last := fun q hq =>
      (List.nodup_append.mp hnd).2.2 q hq last (by simp)
    refine h.retarget_after hprev (fun q hq => hnext q (by simp [hq]) ?_) ?_
    · simpa using (hne q hq).symm
    · simpa using hlast last (by simp)

/-- A cell leaves a list once its two neighbours point at each other. -/
theorem Segment.remove {ps qs : List P} {p : P} (hnd : (ps ++ p :: qs).Nodup)
    (h : Segment prev next none (ps ++ p :: qs) none)
    (hprev : ∀ q ∈ ps ++ qs, qs.head? ≠ some q → prev' q = prev q)
    (hnext : ∀ q ∈ ps ++ qs, ps.getLast? ≠ some q → next' q = next q)
    (hfirst : ∀ q, qs.head? = some q → prev' q = ps.getLast?)
    (hlast : ∀ q, ps.getLast? = some q → next' q = qs.head?) :
    Segment prev' next' none (ps ++ qs) none := by
  rw [segment_append, segment_cons] at h
  obtain ⟨hps, -, -, hqs⟩ := h
  have hdisj : ∀ q ∈ ps, q ∉ qs := fun q hq hq' => by
    have := List.nodup_append.mp hnd
    exact this.2.2 q hq q (by simp [hq']) rfl
  rw [segment_append]
  constructor
  · have hp : ∀ q ∈ ps, prev' q = prev q := fun q hq => hprev q (by simp [hq]) fun hh =>
      hdisj q hq (List.mem_of_head? hh)
    rcases List.eq_nil_or_concat' ps with rfl | ⟨init, last, rfl⟩
    · trivial
    · have hne : ∀ q ∈ init, q ≠ last := fun q hq =>
        (List.nodup_append.mp (List.nodup_append.mp hnd).1).2.2 q hq last (by simp)
      refine hps.retarget_after hp (fun q hq => hnext q (by simp [hq]) ?_) ?_
      · simpa using (hne q hq).symm
      · simpa using hlast last (by simp)
  · have hn : ∀ q ∈ qs, next' q = next q := fun q hq => hnext q (by simp [hq]) fun hh =>
      hdisj q (List.mem_of_getLast? hh) hq
    cases qs with
    | nil => trivial
    | cons first rest =>
      have hne : ∀ q ∈ rest, q ≠ first := by
        rintro q hq rfl
        simp [List.nodup_append, hq] at hnd
      refine hqs.retarget_before (fun q hq => hprev q (by simp [hq]) ?_) hn ?_
      · simpa using (hne q hq).symm
      · simpa using hfirst first (by simp)

/-- Follow the forward links for at most `fuel` cells. -/
def walk (next : P → Option P) : Nat → Option P → List P
  | 0, _ => []
  | _ + 1, none => []
  | fuel + 1, some p => p :: walk next fuel (next p)

/-- Walking a closed segment from its first cell visits exactly its cells. -/
theorem Segment.walk_eq {before : Option P} {ps : List P}
    (h : Segment prev next before ps none) : walk next ps.length ps.head? = ps := by
  induction ps generalizing before with
  | nil => rfl
  | cons p ps ih =>
    obtain ⟨-, hnext, hrest⟩ := h
    simp only [List.length_cons, List.head?_cons, walk, hnext, Option.or_none, ih hrest]

/-- The cells form a singly linked run that starts at `head` and ends in a null link. -/
def Chain (next : P → Option (Option P)) : Option P → List P → Prop
  | head, [] => head = none
  | head, p :: ps => head = some p ∧ ∃ after, next p = some after ∧ Chain next after ps

/-- A chain starts at its head and continues at the next node. -/
theorem chain_cons {nx : P → Option (Option P)} {head : Option P} {p : P} {ps : List P} :
    Chain nx head (p :: ps) ↔
      head = some p ∧ ∃ after, nx p = some after ∧ Chain nx after ps := Iff.rfl

/-- Following the forward links of a list visits its cells in order. -/
theorem Segment.chain_next {before : Option P} {ps : List P}
    (h : Segment prev next before ps none) : Chain (fun p => some (next p)) ps.head? ps := by
  induction ps generalizing before with
  | nil => rfl
  | cons p ps ih =>
    obtain ⟨-, hnext, hrest⟩ := h
    rw [Option.or_none] at hnext
    exact ⟨rfl, ps.head?, congrArg some hnext, ih hrest⟩

/-- Following the backward links of a list visits its cells in the opposite order. -/
theorem Segment.chain_prev {after : Option P} {ps : List P}
    (h : Segment prev next none ps after) :
    Chain (fun p => some (prev p)) ps.getLast? ps.reverse := by
  induction ps using List.reverseRecOn generalizing after with
  | nil => rfl
  | append_singleton ps p ih =>
    obtain ⟨hps, hprev, -⟩ := segment_append.mp h
    rw [Option.or_none] at hprev
    rw [List.getLast?_concat, List.reverse_concat]
    exact ⟨rfl, ps.getLast?, congrArg some hprev, ih hps⟩

/-- A chain reads no link outside its own cells. -/
theorem Chain.congr {nx nx' : P → Option (Option P)} {head : Option P} {ps : List P}
    (hn : ∀ p ∈ ps, nx' p = nx p) (h : Chain nx head ps) : Chain nx' head ps := by
  induction ps generalizing head with
  | nil => exact h
  | cons p ps ih =>
    obtain ⟨hhead, after, hnext, hrest⟩ := h
    exact ⟨hhead, after, (hn p (by simp)).trans hnext, ih (fun q hq => hn q (by simp [hq])) hrest⟩

end Linked

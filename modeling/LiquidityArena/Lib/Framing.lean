import Mathlib.Tactic

/-!
# Incremental parsing of a stream

A rule looks at the front of a buffer: it waits for more, gives up for good, or takes an
item of a given size. Once it takes an item or gives up, what arrives later does not
change that, so the items of a stream do not depend on how the stream is cut.
-/

namespace Framing

/-- What the front of a buffer allows. -/
inductive Next (ι : Type*) where
  | more
  | stop
  | item (i : ι) (size : Nat)

/-- A rule whose decisions are final. -/
structure Rule (β ι : Type*) where
  next : List β → Next ι
  size_pos : ∀ {s i n}, next s = .item i n → 0 < n
  size_le : ∀ {s i n}, next s = .item i n → n ≤ s.length
  item_append : ∀ {s i n}, next s = .item i n → ∀ t, next (s ++ t) = .item i n
  stop_append : ∀ {s}, next s = .stop → ∀ t, next (s ++ t) = .stop

namespace Rule

variable {β ι : Type*} {r : Rule β ι} {s t rest : List β} {i : ι} {n : Nat} {items : List ι}

/-- Taking an item off shortens the stream. -/
theorem length_drop_lt (h : r.next s = .item i n) : (s.drop n).length < s.length := by
  have hpos := r.size_pos h
  have hle := r.size_le h
  rw [List.length_drop]
  omega

/-- The items at the front of a stream and what is left after them; nothing is left to read
once the rule gives up. -/
def parse (r : Rule β ι) (s : List β) : List ι × Option (List β) :=
  match _h : r.next s with
  | .more => ([], some s)
  | .stop => ([], none)
  | .item i n => (i :: (parse r (s.drop n)).1, (parse r (s.drop n)).2)
termination_by s.length
decreasing_by all_goals exact length_drop_lt _h

/-- A stream without a whole item is left as it is. -/
theorem parse_more (h : r.next s = .more) : r.parse s = ([], some s) := by
  rw [parse]
  split <;> simp_all

/-- A stream the rule gives up on is dropped. -/
theorem parse_stop (h : r.next s = .stop) : r.parse s = ([], none) := by
  rw [parse]
  split <;> simp_all

/-- A stream that starts with an item yields it and goes on behind it. -/
theorem parse_item (h : r.next s = .item i n) :
    r.parse s = (i :: (r.parse (s.drop n)).1, (r.parse (s.drop n)).2) := by
  rw [parse]
  split <;> simp_all

/-- What is left is the front of no item. -/
theorem next_rest (h : r.parse s = (items, some rest)) : r.next rest = .more := by
  induction hlen : s.length using Nat.strong_induction_on generalizing s items with
  | _ len ih =>
    cases hnext : r.next s with
    | more =>
      rw [parse_more hnext] at h
      obtain rfl := Option.some.inj (Prod.mk.inj h).2
      exact hnext
    | stop =>
      rw [parse_stop hnext] at h
      cases (Prod.mk.inj h).2
    | item i n =>
      rw [parse_item hnext] at h
      exact ih _ (hlen ▸ length_drop_lt hnext) (Prod.ext rfl (Prod.mk.inj h).2) rfl

/-- Parse what is left together with what has arrived since. -/
def resume (r : Rule β ι) : List ι × Option (List β) → List β → List ι × Option (List β)
  | (items, none), _ => (items, none)
  | (items, some rest), t => (items ++ (r.parse (rest ++ t)).1, (r.parse (rest ++ t)).2)

/-- Parsing in two parts is parsing at once. -/
theorem resume_parse (s t : List β) : r.resume (r.parse s) t = r.parse (s ++ t) := by
  induction hlen : s.length using Nat.strong_induction_on generalizing s with
  | _ len ih =>
    cases hnext : r.next s with
    | more => rw [parse_more hnext, resume, List.nil_append]
    | stop => rw [parse_stop hnext, resume, parse_stop (r.stop_append hnext t)]
    | item i n =>
      have hrest := ih _ (hlen ▸ length_drop_lt hnext) (s.drop n) rfl
      rw [parse_item hnext, parse_item (r.item_append hnext t),
        List.drop_append_of_le_length (r.size_le hnext), ← hrest]
      rcases r.parse (s.drop n) with ⟨items, _ | rest⟩ <;> rfl

/-- What is parsed as one item is that item. -/
theorem next_of_parse (h : r.parse s = ([i], some [])) : r.next s = .item i s.length := by
  cases hnext : r.next s with
  | more =>
    rw [parse_more hnext] at h
    cases (Prod.mk.inj h).1
  | stop =>
    rw [parse_stop hnext] at h
    cases (Prod.mk.inj h).1
  | item j n =>
    rw [parse_item hnext] at h
    obtain ⟨hitems, hrest⟩ := Prod.mk.inj h
    obtain ⟨rfl, hnil⟩ := List.cons.inj hitems
    cases hdrop : r.next (s.drop n) with
    | more =>
      rw [parse_more hdrop] at hrest
      have hle := r.size_le hnext
      have hge := List.drop_eq_nil_iff.mp (Option.some.inj hrest)
      rw [le_antisymm hle hge]
    | stop =>
      rw [parse_stop hdrop] at hrest
      cases hrest
    | item k m =>
      rw [parse_item hdrop] at hnil
      cases hnil

section Encoded

variable {α : Type*} {encode : α → List β} {item : α → ι} {sent : List α}

/-- A stream of encoded items is parsed into them. -/
theorem parse_flatMap (hmore : r.next [] = .more)
    (hitem : ∀ a ∈ sent, r.next (encode a) = .item (item a) (encode a).length) :
    r.parse (sent.flatMap encode) = (sent.map item, some []) := by
  induction sent with
  | nil => exact parse_more hmore
  | cons a sent ih =>
    rw [List.flatMap_cons, parse_item (r.item_append (hitem a List.mem_cons_self) _), List.drop_left,
      ih fun b hb => hitem b (List.mem_cons_of_mem _ hb), List.map_cons]

/-- The beginning of such a stream is parsed into the first items, and no parse gives up. -/
theorem parse_beginning (hmore : r.next [] = .more)
    (hitem : ∀ a ∈ sent, r.next (encode a) = .item (item a) (encode a).length)
    (h : s ++ t = sent.flatMap encode) :
    ∃ items rest, r.parse s = (items, some rest) ∧ items <+: sent.map item ∧
      (t = [] → items = sent.map item) := by
  have hresume := r.resume_parse s t
  rw [h, parse_flatMap hmore hitem] at hresume
  rcases hparse : r.parse s with ⟨items, _ | rest⟩
  · rw [hparse] at hresume
    cases (Prod.mk.inj hresume).2
  · refine ⟨items, rest, rfl, ?_, fun ht => ?_⟩
    · rw [hparse] at hresume
      exact ⟨_, (Prod.mk.inj hresume).1⟩
    · rw [ht, List.append_nil] at h
      rw [h, parse_flatMap hmore hitem] at hparse
      exact (Prod.mk.inj hparse).1.symm

end Encoded

end Rule

end Framing

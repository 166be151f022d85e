import LiquidityArena.View.Depth
import LiquidityArena.View.Regular

/-!
# The matching loop, seen from both sides of the book

`Facing v i` is what the loop relies on while the order `i` is matched: it speaks
about the side `i` trades with, so it also covers a market order that stands on
its own side at the sentinel price. One trade takes from the front order of the
other side and leaves the incoming order's own side alone.
-/

namespace LiquidityArena

open OrderBook

namespace BookView

variable {v v' : BookView} {i i' m : Order} {q : Int} {trades : List (Order × Int)}

/-- What the matching loop relies on to take the orders of a side in their turn. -/
structure Opposed (v : BookView) (s : Bool) : Prop where
  sound : v.Sound
  free : v.All fun o => o.side.isBid = s → o.price ≠ invalidPrice
  topped : v.Topped s

/-- What the matching loop relies on for the incoming order. -/
structure Facing (v : BookView) (i : Order) : Prop extends v.Opposed !i.side.isBid where
  taker : i ∈ v.orders
  sides : v.All fun o => o.side.isBid = !i.side.isBid → o.side.Named
  anchored : v.Anchored (!i.side.isBid)
  live : v.LiveBut i.id

private theorem not_occupied_of_free {s : Bool}
    (h : v.All fun o => o.side.isBid = s → o.price ≠ invalidPrice) :
    ¬ v.Occupied s invalidPrice := by
  rintro ⟨o, ho, hat⟩
  exact h o ho hat.1 hat.2

/-- A change placing no order of a side at the sentinel price keeps it fit to match against. -/
theorem Opposed.change {Fits : Order → Prop} {s : Bool} (hv : v.Opposed s) (h : Change Fits v v')
    (hfits : ∀ {o}, Fits o → o.side.isBid = s → o.price ≠ invalidPrice) : v'.Opposed s where
  sound := h.sound hv.sound
  free := h.all hfits id id hv.free
  topped := h.topped hfits (not_occupied_of_free hv.free) hv.topped

/-- A trade keeps a side fit to match against. -/
theorem Trade.opposed (h : v.Trade i m q v') {s : Bool} (hv : v.Opposed s) : v'.Opposed s :=
  Changes.invariant (h.changes hv.sound fun _ => False) (·.Opposed s)
    (fun hchange hw => hw.change hchange False.elim) hv

/-- A matching pass keeps a side fit to match against. -/
theorem Matched.opposed (h : v.Matched i trades v' i') {s : Bool} (hv : v.Opposed s) :
    v'.Opposed s := by
  induction h with
  | stop _ => exact hv
  | step htrade _ ih => exact ih (htrade.opposed hv)

/-- A trade leaves the incoming order facing the book. -/
theorem Trade.facing (h : v.Trade i m q v') (hv : v.Facing i) : v'.Facing (i.fill q) := by
  have hkept : v'.Sound ∧ (v'.All fun o => o.side.isBid = !i.side.isBid → o.side.Named) ∧
      v'.Anchored (!i.side.isBid) := by
    refine Changes.invariant (h.changes hv.sound fun _ => False)
      (fun w => w.Sound ∧ (w.All fun o => o.side.isBid = !i.side.isBid → o.side.Named) ∧
        w.Anchored (!i.side.isBid)) ?_ ⟨hv.sound, hv.sides, hv.anchored⟩
    rintro w w' hchange ⟨hsound, hsides, hanchored⟩
    exact ⟨hchange.sound hsound, hchange.all False.elim id id hsides,
      hchange.anchored hsound hsides hanchored⟩
  exact ⟨h.opposed hv.toOpposed, h.taker_mem hv.sound, hkept.2.1, hkept.2.2,
    h.liveBut hv.sound hv.live⟩

/-- A matching pass leaves the incoming order facing the book. -/
theorem Matched.facing (h : v.Matched i trades v' i') (hv : v.Facing i) : v'.Facing i' := by
  induction h with
  | stop _ => exact hv
  | step htrade _ ih => exact ih (htrade.facing hv)

/-- An accepted order faces a regular book. -/
theorem Regular.facing (hv : v.Regular) {n : NewOrder} (hacc : v.Accepts n) :
    (v.enter n.order).Facing n.order where
  sound := hv.sound.enter hacc
  taker := by simp [enter, place]
  sides o ho hs := by
    rcases List.mem_append.mp ho with ho | ho
    · exact hv.sides o ho
    · rw [List.mem_singleton.mp ho] at hs
      simp at hs
  free o ho hs := by
    rcases List.mem_append.mp ho with ho | ho
    · exact (hv.prices o ho).ne'
    · rw [List.mem_singleton.mp ho] at hs
      simp at hs
  anchored := (hv.anchored _).place _ _
  topped := (hv.topped _).place (fun hs => by simp at hs) _
  live o ho hne := by
    rcases List.mem_append.mp ho with ho | ho
    · exact hv.live o ho
    · exact absurd (congrArg Order.id (List.mem_singleton.mp ho)) hne

/-- A trade executes something. -/
theorem Trade.qty_pos_of_facing (h : v.Trade i m q v') (hv : v.Facing i) : 0 < q := by
  have hm := hv.live m h.maker_at.1 (h.id_ne hv.sound)
  have hi := h.unfilled
  rw [h.qty, MatchingEngine.makerAvailable]
  split <;> omega

/-- Amending an order of another level leaves a level alone. -/
theorem amend_level_of_not_at (hv : v.Sound) {o : Order} (ho : o ∈ v.orders) {s : Bool} {t : Int}
    (hat : ¬ o.At s t) (f : Order → Order) : amend (v.level s t) o.id f = v.level s t := by
  refine amend_eq_self fun x hx hid => hat ?_
  obtain ⟨hx, hxat⟩ := mem_level.mp hx
  rwa [hv.eq_of_id hx ho hid] at hxat

/-- A fill touches the level of the maker and the level of the incoming order only. -/
theorem level_fill {s : Bool} {t : Int} :
    (v.fill m i q).level s t = amend (amend (v.level s t) m.id (·.fill q)) i.id (·.fill q) := by
  have hP : ∀ o : Order, decide ((o.fill q).At s t) = decide (o.At s t) := fun _ => rfl
  rw [level, fill, filter_amend hP, filter_amend hP]
  rfl

/-- On the other side a fill touches the level of the maker only. -/
theorem Trade.level_fill_other (h : v.Trade i m q v') (hv : v.Sound) (t : Int) :
    (v.fill m i q).level (!i.side.isBid) t =
      amend (v.level (!i.side.isBid) t) m.id (·.fill q) := by
  rw [level_fill, amend_eq_self]
  intro x hx hid
  obtain ⟨y, hy, rfl⟩ := mem_amend.mp hx
  obtain ⟨hy, hyat⟩ := mem_level.mp hy
  have hyid : y.id = i.id := by
    split at hid <;> exact hid
  rw [hv.eq_of_id hy h.taker hyid] at hyat
  simpa using hyat.1

/-- On the other side a trade reduces the front order or takes it off its queue. -/
theorem Trade.level_other (h : v.Trade i m q v') (hv : v.Sound) :
    ∃ rest, v.level (!i.side.isBid) m.price = m :: rest ∧
      ∀ t, v'.level (!i.side.isBid) t =
        if t = m.price then (if q = m.remaining then rest else m.fill q :: rest)
        else v.level (!i.side.isBid) t := by
  obtain ⟨hmem, hat⟩ := h.maker_at
  have hhead := h.maker
  rw [← hat.2] at hhead
  obtain ⟨rest, hrest⟩ : ∃ rest, v.level (!i.side.isBid) m.price = m :: rest := by
    cases hl : v.level (!i.side.isBid) m.price with
    | nil => simp [hl] at hhead
    | cons x xs =>
      rw [hl] at hhead
      exact ⟨xs, by rw [Option.some.inj hhead]⟩
  have hne : ∀ x ∈ rest, x.id ≠ m.id := by
    have hnd : ((v.level (!i.side.isBid) m.price).map (·.id)).Nodup :=
      hv.distinct.sublist (List.filter_sublist.map _)
    rw [hrest, List.map_cons, List.nodup_cons] at hnd
    exact fun x hx hid => hnd.1 (hid ▸ List.mem_map_of_mem hx)
  have hfill : ∀ t, (v.fill m i q).level (!i.side.isBid) t =
      if t = m.price then m.fill q :: rest else v.level (!i.side.isBid) t := by
    intro t
    rw [h.level_fill_other hv]
    by_cases ht : t = m.price
    · rw [ht, hrest, if_pos rfl]
      have hcons : amend (m :: rest) m.id (·.fill q) = m.fill q :: amend rest m.id (·.fill q) := by
        simp [amend]
      rw [hcons, amend_eq_self hne]
    · rw [if_neg ht, amend_level_of_not_at hv hmem fun hmt => ht hmt.2.symm]
  refine ⟨rest, hrest, fun t => ?_⟩
  obtain ⟨-, -, hqm⟩ := h.qty_bounds hv
  rcases h.after_cases with ⟨hle, hdrop⟩ | ⟨hlt, -, rfl⟩
  · rw [hdrop.level_eq, hfill]
    by_cases ht : t = m.price
    · have hself : (rest.filter fun x => x.id != m.id) = rest :=
        List.filter_eq_self.mpr fun x hx => by simpa using hne x hx
      rw [if_pos ht, if_pos ht, if_pos (by omega), List.filter_cons_of_neg (by simp),
        Order.id_fill, hself]
    · rw [if_neg ht, if_neg ht, List.filter_eq_self]
      intro x hx
      obtain ⟨hx, hxat⟩ := mem_level.mp hx
      rw [bne_iff_ne]
      intro hid
      rw [hv.eq_of_id hx hmem hid] at hxat
      exact ht hxat.2.symm
  · rw [hfill, if_neg (by omega : ¬ q = m.remaining)]

/-- The incoming order's own side, without the incoming order. -/
def own (v : BookView) (i : Order) : List Order :=
  v.orders.filter fun x => decide (x.side.isBid = i.side.isBid) && x.id != i.id

private theorem level_eq_filter_side (v : BookView) (s : Bool) (t : Int) :
    v.level s t = (v.side s).filter fun o => o.price = t := by
  rw [level, side, List.filter_filter]
  refine List.filter_congr fun o _ => ?_
  rw [Bool.eq_iff_iff]
  simp [Order.At, and_comm]

/-- On the own side a trade touches nothing but the incoming order. -/
theorem Trade.own (h : v.Trade i m q v') (hv : v.Sound) : v'.own i = v.own i := by
  have hm : ∀ x ∈ v.own i, x.id ≠ m.id := by
    intro x hx hid
    obtain ⟨hx, hP⟩ := List.mem_filter.mp hx
    rw [hv.eq_of_id hx h.maker_at.1 hid] at hP
    simp [h.maker_at.2.1] at hP
  have hi : ∀ x ∈ v.own i, x.id ≠ i.id := by
    intro x hx
    have hP := (List.mem_filter.mp hx).2
    simp only [Bool.and_eq_true, bne_iff_ne] at hP
    exact hP.2
  have hfill : (v.fill m i q).own i = v.own i := by
    have hP : ∀ x : Order, (decide ((x.fill q).side.isBid = i.side.isBid) && (x.fill q).id != i.id) =
      (decide (x.side.isBid = i.side.isBid) && x.id != i.id) := fun _ => rfl
    rw [BookView.own, fill, filter_amend hP, filter_amend hP]
    change amend (amend (v.own i) _ _) _ _ = _
    rw [amend_eq_self hm, amend_eq_self hi]
  rcases h.after_cases with ⟨-, hdrop⟩ | ⟨-, -, rfl⟩
  · have hswap : v'.own i = ((v.fill m i q).own i).filter fun x => x.id != m.id := by
      rw [BookView.own, hdrop.orders, BookView.own, List.filter_filter, List.filter_filter]
      exact List.filter_congr fun x _ => Bool.and_comm _ _
    rw [hswap, hfill, List.filter_eq_self]
    exact fun x hx => by simpa using hm x hx
  · exact hfill

/-- A matching pass leaves the other orders of the taker's side alone. -/
theorem Matched.own (h : v.Matched i trades v' i') (hv : v.Sound) : v'.own i = v.own i := by
  induction h with
  | stop _ => rfl
  | step htrade _ ih => exact (ih (htrade.sound hv)).trans (htrade.own hv)

section Removed

variable {w : BookView} {n : NewOrder} (hv : v.Sound) (hacc : v.Accepts n)
  (hmatched : (v.enter n.order).Matched n.order trades w i) (hdrop : w.Dropped i v')

include hv hacc hmatched hdrop

/-- An incoming order that is removed leaves the orders of its side as they were. -/
theorem side_removed : v'.side n.side.isBid = v.side n.side.isBid := by
  obtain ⟨filled, rfl⟩ := hmatched.taker
  have hleft : v'.side n.side.isBid = w.own n.order := by
    rw [side, hdrop.orders, List.filter_filter, BookView.own, n.side_order]
    rfl
  have hright : (v.enter n.order).own n.order = v.side n.side.isBid := by
    rw [BookView.own, enter, place, List.filter_append, List.filter_cons_of_neg (by simp),
      List.filter_nil, List.append_nil, n.side_order, n.id_order, side]
    refine List.filter_congr fun o ho => ?_
    simp [hacc.fresh o ho]
  rw [hleft, hmatched.own (hv.enter hacc), hright]

/-- Removing a market order leaves the levels of its side. -/
theorem level_removed (t : Int) : v'.level n.side.isBid t = v.level n.side.isBid t := by
  rw [level_eq_filter_side, side_removed hv hacc hmatched hdrop, ← level_eq_filter_side]

end Removed

/-- The depth of the own side loses what the incoming order trades. -/
theorem Trade.total_own (h : v.Trade i m q v') (t : Int) :
    v'.total i.side.isBid t =
      if i.At i.side.isBid t then toInt32 (v.total i.side.isBid t - q)
      else v.total i.side.isBid t := by
  have hmat : ¬ m.At i.side.isBid t := fun hat => by simpa using hat.1.symm.trans h.maker_at.2.1
  have hfill : (v.fill m i q).total i.side.isBid t =
      if i.At i.side.isBid t then toInt32 (v.total i.side.isBid t - q)
      else v.total i.side.isBid t := by
    simp [fill, hmat]
  rcases h.after_cases with ⟨-, hdrop⟩ | ⟨-, -, rfl⟩
  · rw [hdrop.total, if_neg (by simpa using hmat), hfill]
  · exact hfill

/-- A trade takes what it executes off what remains, in every class that holds a party. -/
theorem Trade.sumOver_remaining (h : v.Trade i m q v') (hv : v.Sound) {P : Order → Bool}
    (hP : ByPlace P) :
    v'.sumOver P Order.remaining = v.sumOver P Order.remaining - (if P m = true then q else 0) -
      if P i = true then q else 0 := by
  have hne := h.id_ne hv
  have hb := h.qty_bounds hv
  have hfill : (v.fill m i q).sumOver P Order.remaining = v.sumOver P Order.remaining -
      (if P m = true then q else 0) - if P i = true then q else 0 := by
    rw [sumOver_fill hP hv h.maker_at.1 h.taker hne, Order.remaining_fill, Order.remaining_fill]
    split_ifs <;> omega
  rcases h.after_cases with ⟨hle, hdrop⟩ | ⟨-, -, rfl⟩
  · have hrem : (m.fill q).remaining = 0 := by
      rw [Order.remaining_fill]
      omega
    rw [hdrop.sumOver (h.sound_fill hv) (h.maker_mem hv), hrem, ite_self, sub_zero]
    exact hfill
  · exact hfill

/-- What remains in total of a class of orders is not negative. -/
theorem Sound.sumOver_nonneg (hv : v.Sound) (P : Order → Bool) :
    0 ≤ v.sumOver P Order.remaining := by
  apply List.sum_nonneg
  intro x hx
  obtain ⟨o, ho, rfl⟩ := List.mem_map.mp hx
  exact hv.nonneg o (List.mem_filter.mp ho).1

/-- Of a class at least what remains of each of its orders remains. -/
theorem Sound.remaining_le_sumOver (hv : v.Sound) {P : Order → Bool} {o : Order}
    (ho : o ∈ v.orders) (hP : P o = true) : o.remaining ≤ v.sumOver P Order.remaining := by
  refine List.single_le_sum (fun x hx => ?_) _
    (List.mem_map_of_mem (List.mem_filter.mpr ⟨ho, hP⟩))
  obtain ⟨y, hy, rfl⟩ := List.mem_map.mp hx
  exact hv.nonneg y (List.mem_filter.mp hy).1

/-- What remains in total of the orders on a side. -/
def volume (v : BookView) (s : Bool) : Int := v.sumOver (fun o => o.side.isBid = s) Order.remaining

/-- The other side loses in total what the incoming order trades. -/
theorem Trade.volume (h : v.Trade i m q v') (hv : v.Sound) :
    v'.volume (!i.side.isBid) = v.volume (!i.side.isBid) - q := by
  have hside : m.side.isBid = !i.side.isBid := h.maker_at.2.1
  rw [BookView.volume, h.sumOver_remaining hv byPlace_side]
  simp [hside, BookView.volume]

/-- What remains on a side at a price or better. -/
def volumeTo (v : BookView) (s : Bool) (t : Int) : Int :=
  v.sumOver (fun o => o.side.isBid = s ∧ ¬ Better s t o.price) Order.remaining

/-- What remains on a side at better prices. -/
def volumeBefore (v : BookView) (s : Bool) (t : Int) : Int :=
  v.sumOver (fun o => o.side.isBid = s ∧ Better s o.price t) Order.remaining

/-- An order that enters leaves what the other side holds as it is. -/
theorem sumOver_enter_other {P : Order → Bool} {w : Order → Int} {o : Order} (hP : P o = false) :
    (v.enter o).sumOver P w = v.sumOver P w := by
  rw [enter, sumOver_place, hP, if_neg Bool.false_ne_true, add_zero]

/-- Entering an order leaves the volume of the other side up to a price. -/
theorem volumeTo_enter (v : BookView) (o : Order) (t : Int) :
    (v.enter o).volumeTo (!o.side.isBid) t = v.volumeTo (!o.side.isBid) t :=
  sumOver_enter_other (by simp)

/-- Entering an order leaves the volume of the other side before a price. -/
theorem volumeBefore_enter (v : BookView) (o : Order) (t : Int) :
    (v.enter o).volumeBefore (!o.side.isBid) t = v.volumeBefore (!o.side.isBid) t :=
  sumOver_enter_other (by simp)

/-- Entering an order leaves the levels of the other side. -/
theorem level_enter_other (v : BookView) (o : Order) (t : Int) :
    (v.enter o).level (!o.side.isBid) t = v.level (!o.side.isBid) t := by
  rw [level, enter, place, List.filter_append, List.filter_cons_of_neg (by simp [Order.At]),
    List.filter_nil, List.append_nil]
  rfl

/-- A trade takes what it executes off the volume down to any price the maker is within. -/
theorem Trade.volumeTo (h : v.Trade i m q v') (hv : v.Sound) {t : Int}
    (ht : ¬ Better (!i.side.isBid) t m.price) :
    v'.volumeTo (!i.side.isBid) t = v.volumeTo (!i.side.isBid) t - q := by
  have hside : m.side.isBid = !i.side.isBid := h.maker_at.2.1
  rw [BookView.volumeTo, h.sumOver_remaining hv ⟨fun _ _ => rfl, fun _ _ => rfl⟩]
  simp [hside, ht, BookView.volumeTo]

/-- A trade takes its quantity off the volume before every worse price. -/
theorem Trade.volumeBefore (h : v.Trade i m q v') (hv : v.Sound) (t : Int) :
    v'.volumeBefore (!i.side.isBid) t = v.volumeBefore (!i.side.isBid) t -
      if Better (!i.side.isBid) m.price t then q else 0 := by
  have hside : m.side.isBid = !i.side.isBid := h.maker_at.2.1
  rw [BookView.volumeBefore, h.sumOver_remaining hv ⟨fun _ _ => rfl, fun _ _ => rfl⟩]
  simp [hside, BookView.volumeBefore]

private theorem sumOver_eq_zero {P : Order → Bool} {w : Order → Int}
    (h : ∀ o ∈ v.orders, P o = false) :
    v.sumOver P w = 0 := by
  have hnil : v.orders.filter P = [] := by
    rw [List.filter_eq_nil_iff]
    intro o ho hP
    simp [h o ho] at hP
  rw [sumOver, hnil]
  rfl

/-- Nothing remains at prices better than the cached best one. -/
theorem Topped.volumeTo_eq_zero {s : Bool} (ht : v.Topped s) {t : Int}
    (hb : Better s t (v.best s)) : v.volumeTo s t = 0 := by
  refine sumOver_eq_zero fun o ho => decide_eq_false ?_
  rintro ⟨hside, hnb⟩
  have htop := (ht o.price ⟨o, ho, hside, rfl⟩).2
  cases s <;> simp only [Better] at hb hnb htop <;> omega

/-- Nothing rests before the best price. -/
theorem Topped.volumeBefore_best {s : Bool} (ht : v.Topped s) :
    v.volumeBefore s (v.best s) = 0 := by
  refine sumOver_eq_zero fun o ho => decide_eq_false ?_
  rintro ⟨hside, hb⟩
  exact (ht o.price ⟨o, ho, hside, rfl⟩).2 hb

/-- The order stands in the queue of a level, behind `front`. -/
def Queued (v : BookView) (s : Bool) (t : Int) (front : List Order) (o : Order) : Prop :=
  ∃ back, v.level s t = front ++ o :: back

/-- A queued order rests at its level. -/
theorem Queued.mem {s : Bool} {t : Int} {front : List Order} {o : Order}
    (h : v.Queued s t front o) : o ∈ v.orders ∧ o.At s t := by
  obtain ⟨back, hback⟩ := h
  rw [← mem_level, hback]
  exact List.mem_append_right _ List.mem_cons_self

/-- What remains of the orders at better prices and of those in front in the queue. -/
def waiting (v : BookView) (s : Bool) (t : Int) (front : List Order) : Int :=
  v.volumeBefore s t + (front.map Order.remaining).sum

/-- What remains in front of a queued order is not negative. -/
theorem Queued.front_nonneg {s : Bool} {t : Int} {front : List Order} {o : Order}
    (h : v.Queued s t front o) (hv : v.Sound) : 0 ≤ (front.map Order.remaining).sum := by
  obtain ⟨back, hback⟩ := h
  refine List.sum_nonneg fun x hx => ?_
  obtain ⟨y, hy, rfl⟩ := List.mem_map.mp hx
  have hmem : y ∈ v.level s t := by
    rw [hback]
    exact List.mem_append_left _ hy
  exact hv.nonneg y (mem_level.mp hmem).1

/-- What waits in front of a queued order is not negative. -/
theorem Queued.waiting_nonneg {s : Bool} {t : Int} {front : List Order} {o : Order}
    (h : v.Queued s t front o) (hv : v.Sound) : 0 ≤ v.waiting s t front :=
  add_nonneg (hv.sumOver_nonneg _) (h.front_nonneg hv)

/-- The maker of a trade waits for nobody. -/
theorem Trade.waiting_maker (h : v.Trade i m q v') (ht : v.Topped (!i.side.isBid)) :
    v.waiting (!i.side.isBid) m.price [] = 0 := by
  rw [waiting, h.maker_at.2.2, ht.volumeBefore_best]
  rfl

/-- The maker of a trade is first in its queue. -/
theorem Trade.queued_maker (h : v.Trade i m q v') (hv : v.Sound) :
    v.Queued (!i.side.isBid) m.price [] m := by
  obtain ⟨rest, hrest, -⟩ := h.level_other hv
  exact ⟨rest, hrest⟩

/-- The best price has been reached by every order of another level. -/
theorem Trade.better_of_queued (h : v.Trade i m q v') (hv : v.Opposed !i.side.isBid) {t : Int}
    {front : List Order} {o : Order} (ho : v.Queued (!i.side.isBid) t front o)
    (hne : t ≠ m.price) : Better (!i.side.isBid) m.price t := by
  by_contra hnb
  obtain ⟨back, hback⟩ := ho
  have hocc : v.Occupied (!i.side.isBid) t := by
    rw [← level_ne_nil_iff, hback]
    simp
  have htop := (hv.topped t hocc).2
  rw [← h.maker_at.2.2] at htop
  exact hne (eq_of_not_better htop hnb)

/-- An order queued before a trade is the maker or is closer to its turn after it. -/
theorem Trade.queued_after (h : v.Trade i m q v') (hv : v.Opposed !i.side.isBid) {t : Int}
    {front : List Order} {o : Order} (ho : v.Queued (!i.side.isBid) t front o) :
    (o = m ∧ front = [] ∧ t = m.price) ∨ ∃ front', v'.Queued (!i.side.isBid) t front' o ∧
      v'.waiting (!i.side.isBid) t front' = v.waiting (!i.side.isBid) t front - q := by
  obtain ⟨rest, hrest, hlevel⟩ := h.level_other hv.sound
  have hbefore := h.volumeBefore hv.sound t
  by_cases ht : t = m.price
  · subst ht
    obtain ⟨back, hback⟩ := ho
    rw [hrest] at hback
    rw [if_neg (better_irrefl _ _), sub_zero] at hbefore
    cases front with
    | nil => exact Or.inl ⟨(List.cons.inj hback).1.symm, rfl, rfl⟩
    | cons x front =>
      obtain ⟨rfl, htail⟩ := List.cons.inj hback
      have htail : rest = front ++ o :: back := htail
      have hafter := hlevel m.price
      rw [if_pos rfl] at hafter
      by_cases hall : q = m.remaining
      · rw [if_pos hall] at hafter
        refine Or.inr ⟨front, ⟨back, hafter.trans htail⟩, ?_⟩
        rw [waiting, waiting, hbefore, List.map_cons, List.sum_cons]
        omega
      · rw [if_neg hall] at hafter
        refine Or.inr ⟨m.fill q :: front, ⟨back, ?_⟩, ?_⟩
        · rw [hafter, htail, List.cons_append]
        · rw [waiting, waiting, hbefore, List.map_cons, List.map_cons, List.sum_cons,
            List.sum_cons, Order.remaining_fill]
          omega
  · rw [if_pos (h.better_of_queued hv ho ht)] at hbefore
    obtain ⟨back, hback⟩ := ho
    refine Or.inr ⟨front, ⟨back, ?_⟩, ?_⟩
    · rw [hlevel, if_neg ht, hback]
    · rw [waiting, waiting, hbefore]
      omega

/-- An order queued after a trade is what is left of the maker or was farther from its turn. -/
theorem Trade.queued_before (h : v.Trade i m q v') (hv : v.Opposed !i.side.isBid) {t : Int}
    {front : List Order} {o : Order} (ho : v'.Queued (!i.side.isBid) t front o) :
    (o = m.fill q ∧ q < m.remaining ∧ front = [] ∧ t = m.price) ∨
      ∃ front', v.Queued (!i.side.isBid) t front' o ∧
        v.waiting (!i.side.isBid) t front' = v'.waiting (!i.side.isBid) t front + q := by
  obtain ⟨rest, hrest, hlevel⟩ := h.level_other hv.sound
  obtain ⟨-, -, hqm⟩ := h.qty_bounds hv.sound
  have hbefore := h.volumeBefore hv.sound t
  obtain ⟨back, hback⟩ := ho
  rw [hlevel] at hback
  by_cases ht : t = m.price
  · subst ht
    rw [if_neg (better_irrefl _ _), sub_zero] at hbefore
    rw [if_pos rfl] at hback
    by_cases hall : q = m.remaining
    · rw [if_pos hall] at hback
      refine Or.inr ⟨m :: front, ⟨back, ?_⟩, ?_⟩
      · rw [hrest, hback, List.cons_append]
      · rw [waiting, waiting, hbefore, List.map_cons, List.sum_cons]
        omega
    · rw [if_neg hall] at hback
      cases front with
      | nil => exact Or.inl ⟨(List.cons.inj hback).1.symm, by omega, rfl, rfl⟩
      | cons x front =>
        obtain ⟨rfl, htail⟩ := List.cons.inj hback
        have htail : rest = front ++ o :: back := htail
        refine Or.inr ⟨m :: front, ⟨back, ?_⟩, ?_⟩
        · rw [hrest, htail, List.cons_append]
        · rw [waiting, waiting, hbefore, List.map_cons, List.map_cons, List.sum_cons,
            List.sum_cons, Order.remaining_fill]
          omega
  · rw [if_neg ht] at hback
    rw [if_pos (h.better_of_queued hv ⟨back, hback⟩ ht)] at hbefore
    refine Or.inr ⟨front, ⟨back, hback⟩, ?_⟩
    rw [waiting, waiting, hbefore]
    omega

/-- The trade is within the price limit of the incoming order. -/
theorem Trade.within (h : v.Trade i m q v') (hty : i.type = .limit ∨ i.type = .iceberg) :
    ¬ Better (!i.side.isBid) i.price m.price := by
  rw [better_not, ← incompatible_iff hty, h.maker_at.2.2]
  exact h.compatible

/-- A cached best price beyond the limit leaves nothing within it. -/
theorem Topped.volumeTo_eq_zero_of_beyond {s : Bool} (ht : v.Topped s) (ha : v.Anchored s)
    {t : Int} (hb : v.best s = invalidPrice ∨ Better s t (v.best s)) : v.volumeTo s t = 0 := by
  rcases hb with hinv | hb
  · have hnil := (best_eq_invalid_iff ha ht).mp hinv
    refine sumOver_eq_zero fun o ho => decide_eq_false ?_
    rintro ⟨hside, -⟩
    exact absurd (mem_side.mpr ⟨ho, hside⟩) (by simp [hnil])
  · exact ht.volumeTo_eq_zero hb

/-- When the loop stops with something left, nothing is left within the price limit. -/
theorem Stops.volumeTo_eq_zero (h : v.Stops i) (hv : v.Facing i) (hrem : 0 < i.remaining) :
    v.volumeTo (!i.side.isBid) i.price = 0 := by
  have hbeyond := h.not_crossing hv.anchored hrem
  rw [← better_not] at hbeyond
  exact hv.topped.volumeTo_eq_zero_of_beyond hv.anchored hbeyond

/-- An order crosses the spread exactly when something remains within its limit. -/
theorem Regular.crosses_iff (hv : v.Regular) {side : Side} (hside : side.Named) (price : Int) :
    v.Crosses side price ↔ 0 < v.volumeTo (!side.isBid) price := by
  constructor
  · rintro ⟨-, hinv, hnb⟩
    obtain ⟨o, ho, hat⟩ := (hv.anchored (!side.isBid)).resolve_left hinv
    refine (hv.live o ho).trans_le (hv.sound.remaining_le_sumOver ho (decide_eq_true ⟨hat.1, ?_⟩))
    rwa [hat.2, better_not]
  · intro hpos
    by_contra hno
    refine hpos.ne' ((hv.topped _).volumeTo_eq_zero_of_beyond (hv.anchored _) ?_)
    by_contra hbeyond
    rw [better_not, not_or] at hbeyond
    exact hno ⟨hside, hbeyond⟩

/-- The loop takes from the incoming order what it takes from the volume within its limit. -/
theorem Matched.volumeTo (h : v.Matched i trades v' i') (hv : v.Sound)
    (hty : i.type = .limit ∨ i.type = .iceberg) :
    v'.volumeTo (!i.side.isBid) i.price - i'.remaining =
      v.volumeTo (!i.side.isBid) i.price - i.remaining := by
  induction h with
  | stop _ => rfl
  | step htrade _ ih =>
    have hrec := ih (htrade.sound hv) hty
    rw [Order.side_fill, Order.price_fill, htrade.volumeTo hv (htrade.within hty),
      Order.remaining_fill] at hrec
    omega

/-- An order with a price limit is left with what the volume within its limit cannot fill. -/
theorem Matched.remaining_eq (h : v.Matched i trades v' i') (hv : v.Facing i)
    (hty : i.type = .limit ∨ i.type = .iceberg) :
    i'.remaining = max 0 (i.remaining - v.volumeTo (!i.side.isBid) i.price) := by
  have hbalance := h.volumeTo hv.sound hty
  have hfacing := h.facing hv
  have hnonneg : 0 ≤ v'.volumeTo (!i.side.isBid) i.price := hfacing.sound.sumOver_nonneg _
  have hrem := hfacing.sound.nonneg i' hfacing.taker
  have hstops := h.stops
  obtain ⟨filled, rfl⟩ := h.taker
  by_cases hpos : 0 < (i.fill filled).remaining
  · have hzero := hstops.volumeTo_eq_zero hfacing hpos
    rw [Order.side_fill, Order.price_fill] at hzero
    omega
  · omega

end BookView

end LiquidityArena

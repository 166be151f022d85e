import LiquidityArena.View.FeeTotals
import LiquidityArena.View.Shares

/-!
# The fills that an order could lead to

Whatever the cached best prices are, an incoming order trades with orders of the other side
within its limit, takes from none more than remains of it, and executes no more than its
quantity. The trades of a loop are such fills, and so are the trades of each part of it.
-/

namespace LiquidityArena

open MatchingEngine OrderBook

/-- Fills between an incoming order and orders of the book, in any order of priority. -/
structure OrderBook.Conceivable (b : OrderBook) (n : NewOrder) (fills : List (Order × Int)) :
    Prop where
  maker : ∀ f ∈ fills, f.1 ∈ (b.ordersOf !n.side.isBid) ∧ ¬ Incompatible n.order f.1.price ∧ 0 ≤ f.2
  share : ∀ o ∈ b.ordersOf !n.side.isBid, takenFrom fills o.id ≤ o.remaining
  total : (fills.map Prod.snd).sum ≤ n.quantity

/-- What the fills are worth. -/
def notional (fills : List (Order × Int)) : Int := (fills.map fun f => f.1.price * f.2).sum

/-- What the fills are worth, without the signs of the prices. -/
def turnover (fills : List (Order × Int)) : Int := (fills.map fun f => |f.1.price| * f.2).sum

/-- The notional of two lists of fills adds up. -/
theorem notional_append (fills fills' : List (Order × Int)) :
    notional (fills ++ fills') = notional fills + notional fills' := by
  rw [notional, List.map_append, List.sum_append]
  rfl

/-- The turnover of two lists of fills adds up. -/
theorem turnover_append (fills fills' : List (Order × Int)) :
    turnover (fills ++ fills') = turnover fills + turnover fills' := by
  rw [turnover, List.map_append, List.sum_append]
  rfl

private theorem takenFrom_append (fills fills' : List (Order × Int)) (id : OrderId) :
    takenFrom (fills ++ fills') id = takenFrom fills id + takenFrom fills' id := by
  rw [takenFrom, List.filter_append, List.map_append, List.sum_append]
  rfl

private theorem takenFrom_singleton (o : Order) (q : Int) (id : OrderId) :
    takenFrom [(o, q)] id = if o.id = id then q else 0 := by
  rw [takenFrom_cons]
  exact add_zero _

/-- Fills are worth at most their turnover. -/
theorem abs_notional_le {fills : List (Order × Int)} (h : ∀ f ∈ fills, 0 ≤ f.2) :
    |notional fills| ≤ turnover fills := by
  induction fills with
  | nil => exact le_of_eq abs_zero
  | cons f fills ih =>
    have hrest := ih fun g hg => h g (List.mem_cons_of_mem _ hg)
    have hnonneg := h f List.mem_cons_self
    calc |notional (f :: fills)| = |f.1.price * f.2 + notional fills| := by
          rw [notional, List.map_cons, List.sum_cons]
          rfl
      _ ≤ |f.1.price * f.2| + |notional fills| := abs_add_le ..
      _ ≤ |f.1.price| * f.2 + turnover fills := by
          rw [abs_mul, abs_of_nonneg hnonneg]
          omega
      _ = turnover (f :: fills) := by
          symm
          rw [turnover, List.map_cons, List.sum_cons]
          rfl

/-- Conceivable fills turn over at most the quantity of the order at the worst price. -/
theorem OrderBook.Conceivable.turnover_le {b : OrderBook} {n : NewOrder}
    {fills : List (Order × Int)} (h : b.Conceivable n fills) {P : Int} (hP : 0 ≤ P)
    (hprice : ∀ o ∈ b.ordersOf !n.side.isBid, |o.price| ≤ P) : turnover fills ≤ P * n.quantity := by
  have hle : turnover fills ≤ (fills.map fun f => P * f.2).sum := by
    refine List.sum_le_sum fun f hf => ?_
    obtain ⟨hmem, -, hnonneg⟩ := h.maker f hf
    exact mul_le_mul_of_nonneg_right (hprice f.1 hmem) hnonneg
  calc turnover fills ≤ (fills.map fun f => P * f.2).sum := hle
    _ = P * (fills.map Prod.snd).sum := List.sum_map_mul_left ..
    _ ≤ P * n.quantity := mul_le_mul_of_nonneg_left h.total hP

/-- One more fill is conceivable if its maker and the order have that much left. -/
theorem OrderBook.Conceivable.append {b : OrderBook} {n : NewOrder} {fills : List (Order × Int)}
    (h : b.Conceivable n fills) {o : Order} {q : Int}
    (hmaker : o ∈ b.ordersOf (!n.side.isBid) ∧ ¬ Incompatible n.order o.price ∧ 0 ≤ q)
    (hshare : ∀ o' ∈ b.ordersOf !n.side.isBid, o.id = o'.id → takenFrom fills o'.id + q ≤ o'.remaining)
    (htotal : (fills.map Prod.snd).sum + q ≤ n.quantity) : b.Conceivable n (fills ++ [(o, q)]) where
  maker f hf := by
    rcases List.mem_append.mp hf with hf | hf
    · exact h.maker f hf
    · rw [List.mem_singleton.mp hf]
      exact hmaker
  share o' ho' := by
    rw [takenFrom_append, takenFrom_singleton]
    split_ifs with he
    · exact hshare o' ho' he
    · rw [add_zero]
      exact h.share o' ho'
  total := by
    rw [List.map_append, List.sum_append, List.map_singleton, List.sum_singleton]
    exact htotal

namespace FeeSchedule

variable (fees : FeeSchedule) (takerId : OrderId) (trades : List (Order × Int))

/-- The taker fees of the reported fills are their notional at the taker rate. -/
theorem charges_tradeMsgs :
    fees.charges (tradeMsgs fees takerId trades) = notional trades * fees.takerFeeBps := by
  rw [charges, tradeMsgs, List.map_map, notional, ← List.sum_map_mul_right]
  rfl

/-- The maker rebates of the reported fills are their notional at the maker rate. -/
theorem rebates_tradeMsgs :
    fees.rebates (tradeMsgs fees takerId trades) = notional trades * fees.makerRebateBps := by
  rw [rebates, tradeMsgs, List.map_map, notional, ← List.sum_map_mul_right]
  rfl

end FeeSchedule

namespace BookView

variable {b : OrderBook} {v v' w w' : BookView} {n : NewOrder} {i i' m : Order} {q : Int}
  {fills trades : List (Order × Int)}

/-- Where an order of the book was before a trade. -/
theorem Trade.mem_before (h : w.Trade i m q w') (hw : w.Sound) {x' : Order} (hx' : x' ∈ w'.orders) :
    ∃ x ∈ w.orders, x' = if x.id = m.id ∨ x.id = i.id then x.fill q else x := by
  have hmem : x' ∈ (w.fill m i q).orders := by
    rcases h.after_cases with ⟨-, hdrop⟩ | ⟨-, -, rfl⟩
    · exact (hdrop.mem_iff.mp hx').1
    · exact hx'
  rw [orders_fill (h.id_ne hw), List.mem_map] at hmem
  obtain ⟨x, hx, rfl⟩ := hmem
  exact ⟨x, hx, rfl⟩

/-- The part of a loop that has led from the book to a view: what it has executed, of which orders,
and what it has left of them. -/
structure Progress (b : OrderBook) (n : NewOrder) (w : BookView) (i : Order)
    (fills : List (Order × Int)) : Prop where
  taker : i = n.order.fill (fills.map Prod.snd).sum
  makers : ∀ m ∈ w.orders, m.side.isBid = !n.side.isBid →
    ∃ o ∈ b.ordersOf !n.side.isBid, o.id = m.id ∧ o.price = m.price ∧
      m.remaining = o.remaining - takenFrom fills o.id
  conceivable : b.Conceivable n fills

/-- At its start a loop has executed nothing. -/
theorem Progress.start (h : b.Shows v) (hpos : 0 ≤ n.quantity) :
    Progress b n (v.enter n.order) n.order [] where
  taker := (Order.fill_zero _).symm
  makers m hm hside := by
    rcases List.mem_append.mp hm with hm | hm
    · exact ⟨m, h.mem_ordersOf.mpr ⟨hm, hside⟩, rfl, rfl, (sub_zero _).symm⟩
    · rw [List.mem_singleton.mp hm, n.side_order] at hside
      simp at hside
  conceivable := by
    refine ⟨by simp, fun o ho => ?_, hpos⟩
    exact h.sound.nonneg o (h.mem_ordersOf.mp ho).1

/-- A trade adds a fill with the order that its maker was. -/
theorem Progress.trade (hp : Progress b n w i fills) (h : b.Shows v) (htrade : w.Trade i m q w')
    (hw : w.Sound) : ∃ o, o.price = m.price ∧
      Progress b n w' (i.fill q) (fills ++ [(o, q)]) := by
  have hside : i.side = n.side := by rw [hp.taker, Order.side_fill, n.side_order]
  obtain ⟨hm, hmat⟩ := htrade.maker_at
  rw [hside] at hmat
  obtain ⟨o, ho, hid, hprice, hrem⟩ := hp.makers m hm hmat.1
  obtain ⟨hq, hqi, hqm⟩ := htrade.qty_bounds hw
  have hsame : ∀ o' ∈ b.ordersOf !n.side.isBid, o.id = o'.id → o' = o := fun o' ho' he =>
    h.sound.eq_of_id (h.mem_ordersOf.mp ho').1 (h.mem_ordersOf.mp ho).1 he.symm
  refine ⟨o, hprice, ?_, fun m' hm' hside' => ?_, ?_⟩
  · rw [hp.taker, Order.fill_fill, List.map_append, List.sum_append, List.map_singleton,
      List.sum_singleton]
  · obtain ⟨x, hx, rfl⟩ := htrade.mem_before hw hm'
    have hxside : x.side.isBid = !n.side.isBid := by
      split_ifs at hside' <;> exact hside'
    obtain ⟨o', ho', hid', hprice', hrem'⟩ := hp.makers x hx hxside
    have hxi : x.id ≠ i.id := by
      intro he
      rw [hw.eq_of_id hx htrade.taker he, hside] at hxside
      simp at hxside
    refine ⟨o', ho', ?_, ?_, ?_⟩
    · split_ifs <;> exact hid'
    · split_ifs <;> exact hprice'
    · rw [takenFrom_append, takenFrom_singleton]
      by_cases hxm : x.id = m.id
      · rw [if_pos (Or.inl hxm), if_pos (by rw [hid, hid', hxm]), Order.remaining_fill, hrem']
        omega
      · rw [if_neg (by simp [hxm, hxi]), if_neg (by rw [hid, hid']; exact Ne.symm hxm), hrem']
        omega
  · have hcompatible := htrade.compatible
    rw [hside, ← hmat.2, ← hprice, hp.taker] at hcompatible
    rw [hp.taker, Order.remaining_fill, n.remaining_order] at hqi
    refine hp.conceivable.append ⟨ho, hcompatible, hq⟩ (fun o' ho' he => ?_) (by omega)
    rw [hsame o' ho' he]
    omega

/-- A whole loop. -/
theorem Progress.matched (hmatched : w.Matched i trades w' i') (h : b.Shows v) (hw : w.Sound)
    (hp : Progress b n w i fills) : ∃ later, Progress b n w' i' (fills ++ later) ∧
      notional later = notional trades := by
  induction hmatched generalizing fills with
  | stop _ => exact ⟨[], by rwa [List.append_nil], rfl⟩
  | step htrade _ ih =>
    obtain ⟨o, hprice, hp'⟩ := hp.trade h htrade hw
    obtain ⟨later, hlater, hworth⟩ := ih (htrade.sound hw) hp'
    rw [List.append_assoc] at hlater
    refine ⟨_, hlater, ?_⟩
    rw [notional_append, hworth, notional, notional, notional, List.map_singleton, hprice]
    simp

/-- The trades of a new order are conceivable. -/
theorem Effect.conceivable (heffect : v.Effect (.newOrder n) trades v') (h : b.Shows v)
    (hacc : v.Accepts n) :
    ∃ fills, b.Conceivable n fills ∧ notional fills = notional trades := by
  have hstart := Progress.start h hacc.valid.quantity_pos.le
  cases heffect with
  | refused hno => exact absurd hacc hno
  | rested _ _ _ => exact ⟨[], hstart.conceivable, rfl⟩
  | matched _ _ hmatched _ =>
    obtain ⟨fills, hp, hworth⟩ := Progress.matched hmatched h (h.sound.enter hacc) hstart
    exact ⟨fills, hp.conceivable, hworth⟩

end BookView

end LiquidityArena

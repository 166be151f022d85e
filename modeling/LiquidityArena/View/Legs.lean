import LiquidityArena.View.Executions

/-!
# The two legs of a trade

The maker of every trade is an order of the book, on the other side and within the limit
of the incoming order. A leg of which a trade executes all that was left is gone when the
call returns.
-/

namespace LiquidityArena

open MatchingEngine OrderBook

namespace BookView

variable {v v' : BookView} {i i' : Order} {call : Call} {trades : List (Order × Int)}

/-- The maker of a trade as it stood before, and what becomes of it and of the incoming order. -/
structure Legs (v : BookView) (i : Order) (v' : BookView) (i' : Order) (trade : Order × Int) :
    Prop where
  maker : ∃ x ∈ v.orders, x.id = trade.1.id ∧ x.side.isBid = !i.side.isBid ∧
    ¬ Incompatible i x.price ∧ (x.remaining ≤ trade.2 → v'.All (·.id ≠ x.id))
  taker : i'.remaining ≤ i.remaining - trade.2

/-- A loop adds no orders. -/
theorem Matched.ids (h : v.Matched i trades v' i') (hv : v.Sound) :
    v'.All fun o => ∃ x ∈ v.orders, x.id = o.id :=
  h.all hv (fun ho => ho) (fun ho => ho) fun o ho => ⟨o, ho, rfl⟩

private theorem Matched.legs (h : v.Matched i trades v' i') (hv : v.Sound) :
    ∀ trade ∈ trades, Legs v i v' i' trade := by
  induction h with
  | stop _ => exact fun _ ht => absurd ht List.not_mem_nil
  | @step v w v' i i' m q trades htrade hrest ih =>
    obtain ⟨hq, -, -⟩ := htrade.qty_bounds hv
    intro trade ht
    rcases List.mem_cons.mp ht with rfl | ht
    · refine ⟨⟨m, htrade.maker_at.1, rfl, htrade.maker_at.2.1, ?_, fun hle o ho hid => ?_⟩, ?_⟩
      · rw [htrade.maker_at.2.2]
        exact htrade.compatible
      · obtain ⟨x, hx, hxid⟩ := hrest.ids (htrade.sound hv) o ho
        exact htrade.maker_gone hle x hx (hxid.trans hid)
      · have hle := hrest.remaining_le (htrade.sound hv)
        rwa [Order.remaining_fill] at hle
    · obtain ⟨⟨x', hx', hid, hside, hcompatible, hgone⟩, htaker⟩ := ih (htrade.sound hv) trade ht
      obtain ⟨x, hx, rfl⟩ := htrade.mem_before hv hx'
      refine ⟨⟨x, hx, ?_⟩, ?_⟩
      · split_ifs at hid hside hcompatible hgone
        · refine ⟨hid, hside, hcompatible, fun hle => hgone ?_⟩
          rw [Order.remaining_fill]
          omega
        · exact ⟨hid, hside, hcompatible, hgone⟩
      · rw [Order.remaining_fill] at htaker
        omega

/-- What becomes less of an order keeps, an effect keeps of all orders. -/
theorem Effect.all_reduced {P : Order → Prop} (h : v.Effect call trades v') (hv : v.Sound)
    (henters : v.Enters P call) (hreduced : ∀ {o o' : Order}, P o → o.Reduced o' → P o')
    (hi : v.All P) : v'.All P := by
  have hboth := h.invariant hv P (fun w => w.Sound ∧ w.All P) henters
    (fun hchange hw => ⟨hchange.sound hw.1, hchange.all_reduced hw.1 id hreduced hw.2⟩) ⟨hv, hi⟩
  exact hboth.2

/-- Besides the order a call is about, all orders were there before. -/
theorem Effect.ids_call (h : v.Effect call trades v') (hv : v.Sound) :
    v'.All fun x => x.id = call.id ∨ ∃ o ∈ v.orders, o.id = x.id := by
  refine h.invariant hv (·.id = call.id)
    (·.All fun x => x.id = call.id ∨ ∃ o ∈ v.orders, o.id = x.id) ?_
    (fun hchange => hchange.all Or.inl (fun hx => hx) (fun hx => hx))
    fun x hx => Or.inr ⟨x, hx, rfl⟩
  cases call with
  | newOrder n => exact fun _ => n.id_order
  | cancel id => trivial
  | modify id price qty => exact fun o _ hid _ _ _ => (id_reentry o price qty).trans hid

/-- A cancelled order is gone, and the others stay. -/
theorem Effect.of_cancel {id : OrderId} (h : v.Effect (.cancel id) trades v') :
    v'.All fun x => x ∈ v.orders ∧ x.id ≠ id := by
  intro x hx
  cases h with
  | cancelled _ hdrop => exact hdrop.mem_iff.mp hx
  | notFound hno => exact ⟨hx, hno x hx⟩

/-- A trade of a call is one of an order that enters. -/
theorem Effect.legs (h : v.Effect call trades v') (hv : v.Sound) {trade : Order × Int}
    (ht : trade ∈ trades) : ∃ n, call = .newOrder n ∧ v.Accepts n ∧
      (∃ x ∈ v.orders, x.id = trade.1.id ∧ x.side.isBid = !n.side.isBid ∧
        ¬ Incompatible n.order x.price ∧ (x.remaining ≤ trade.2 → v'.All (·.id ≠ x.id))) ∧
      (n.type ≠ .market → n.quantity ≤ trade.2 → v'.All (·.id ≠ n.id)) := by
  cases h with
  | refused _ => cases ht
  | rested _ _ _ => cases ht
  | cancelled _ _ => cases ht
  | notFound _ => cases ht
  | modified _ _ _ _ => cases ht
  | unmodified _ => cases ht
  | @matched n _ w _ i hacc _ hmatched hsettled =>
    have hsound := hv.enter hacc
    obtain ⟨⟨x, hx, hid, hside, hcompatible, hgone⟩, htaker⟩ := hmatched.legs hsound trade ht
    have hids : ∀ o ∈ v'.orders, o ∈ w.orders := by
      intro o ho
      rw [Settled] at hsettled
      split_ifs at hsettled
      · exact (hsettled.mem_iff.mp ho).1
      · exact hsettled ▸ ho
    rw [n.side_order] at hside
    refine ⟨n, rfl, hacc, ⟨x, ?_, hid, hside, hcompatible, fun hle o ho =>
      hgone hle o (hids o ho)⟩, fun hty hle o ho => ?_⟩
    · refine (List.mem_append.mp hx).resolve_right fun hself => ?_
      rw [List.mem_singleton.mp hself, n.side_order] at hside
      simp at hside
    · rw [n.remaining_order] at htaker
      rw [Settled, if_pos (iff_of_false hty (by omega))] at hsettled
      obtain ⟨filled, rfl⟩ := hmatched.taker
      rw [← n.id_order]
      exact (hsettled.mem_iff.mp ho).2

end BookView

end LiquidityArena

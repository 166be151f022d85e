import LiquidityArena.View.Changes

/-!
# Books of orders that may rest

The calls that only enter orders with a named side and a price above the sentinel, and the
invariant of the books they reach: cached best prices are exact and nothing that
is filled stays. Market orders are left out, because a filled one does stay.
-/

namespace LiquidityArena

open OrderBook

/-- The call can only enter an order that may rest, on a named side away from the sentinel. -/
def Call.Proper : Call → Prop
  | .newOrder n => n.side.Named ∧ n.type ≠ .market ∧ (n.Valid → invalidPrice < n.price)
  | .cancel _ => True
  | .modify _ price _ => invalidPrice < price

/-- A proper call enters only orders the book can hold. -/
theorem Call.Proper.enters {v : BookView} {call : Call} (h : call.Proper)
    (hv : v.All (·.side.Named)) : v.Enters BookView.Fit call := by
  cases call with
  | newOrder n =>
    intro hacc
    refine ⟨?_, ?_⟩
    · rw [n.side_order]
      exact h.1
    · rw [n.price_order h.2.1]
      exact h.2.2 hacc.valid
  | cancel id => trivial
  | modify id price qty =>
    intro o ho _ _ _ _
    refine ⟨?_, ?_⟩
    · rw [BookView.side_reentry]
      exact hv o ho
    · rw [BookView.price_reentry]
      exact h

namespace BookView

variable {v v' : BookView} {i i' m : Order} {q : Int} {trades : List (Order × Int)} {call : Call}

/-- Every order other than the incoming one has something left. -/
def LiveBut (v : BookView) (id : OrderId) : Prop := v.All fun o => o.id ≠ id → 0 < o.remaining

/-- A trade keeps every order but the incoming one alive. -/
theorem Trade.liveBut (h : v.Trade i m q v') (hv : v.Sound) (hlive : v.LiveBut i.id) :
    v'.LiveBut i.id := by
  have hfill : ∀ o ∈ (v.fill m i q).orders, o.id ≠ i.id → o.id = m.id ∨ 0 < o.remaining := by
    intro o ho hne
    rw [orders_fill (h.id_ne hv), List.mem_map] at ho
    obtain ⟨x, hx, rfl⟩ := ho
    by_cases hid : x.id = m.id ∨ x.id = i.id
    · rw [if_pos hid] at hne ⊢
      exact Or.inl (hid.resolve_right hne)
    · rw [if_neg hid] at hne ⊢
      exact Or.inr (hlive x hx hne)
  intro o ho hne
  rcases h.after_cases with ⟨-, hdrop⟩ | ⟨hlt, -, rfl⟩
  · obtain ⟨ho, hid⟩ := hdrop.mem_iff.mp ho
    exact (hfill o ho hne).resolve_left hid
  · rcases hfill o ho hne with hid | hpos
    · have hmem := h.maker_mem hv
      rw [(h.sound hv).eq_of_id ho hmem hid, Order.remaining_fill]
      omega
    · exact hpos

private theorem Matched.liveBut (h : v.Matched i trades v' i') (hv : v.Sound)
    (hlive : v.LiveBut i.id) :
    v'.LiveBut i.id := by
  induction h with
  | stop _ => exact hlive
  | step htrade _ ih => exact ih (htrade.sound hv) (htrade.liveBut hv hlive)

/-- The trades of a loop change nothing of the incoming order but what remains of it. -/
theorem Matched.taker (h : v.Matched i trades v' i') : ∃ filled, i' = i.fill filled := by
  induction h with
  | @stop v i _ => exact ⟨0, by simp [Order.fill]⟩
  | @step _ _ _ _ _ _ q _ _ _ ih =>
    obtain ⟨filled, rfl⟩ := ih
    exact ⟨q + filled, by simp only [Order.fill, add_assoc]⟩

/-- A loop ends by one of its exits. -/
theorem Matched.stops (h : v.Matched i trades v' i') : v'.Stops i' := by
  induction h with
  | stop hstop => exact hstop
  | step _ _ ih => exact ih

/-- A limited order is incompatible with the prices that its own side calls better. -/
theorem incompatible_iff (hty : i.type = .limit ∨ i.type = .iceberg) (t : Int) :
    MatchingEngine.Incompatible i t ↔ Better i.side.isBid t i.price := by
  rw [MatchingEngine.Incompatible]
  cases i.side.isBid <;> simp [hty, Better]

/-- An exit with something left means that the other side is empty or priced apart. -/
theorem Stops.not_crossing (h : v.Stops i) (ha : v.Anchored (!i.side.isBid))
    (hrem : 0 < i.remaining) : v.best (!i.side.isBid) = invalidPrice ∨
      Better i.side.isBid (v.best (!i.side.isBid)) i.price := by
  rcases h with hle | hinv | hinc | hnil
  · exact absurd hrem (not_lt.mpr hle)
  · exact Or.inl hinv
  · obtain ⟨-, ⟨hs, hlt⟩ | ⟨hs, hgt⟩⟩ := hinc
    · exact Or.inr (by rw [hs] at hlt ⊢; exact hlt)
    · exact Or.inr (by rw [hs] at hgt ⊢; exact hgt)
  · exact Or.inl (ha.resolve_right fun hocc => level_ne_nil_iff.mpr hocc hnil)

/-- What proper calls guarantee of the view they leave. -/
structure Regular (v : BookView) : Prop extends v.Ordered where
  live : v.All (0 < ·.remaining)

/-- The empty book is regular. -/
theorem regular_empty : Regular ⟨[], fun _ _ => 0, fun _ => invalidPrice⟩ where
  sound := ⟨List.nodup_nil, by simp⟩
  sides := by simp [All]
  prices := by simp [All]
  anchored _ := Or.inl rfl
  topped := by simp [Topped, Occupied]
  live := by simp [All]

/-- Calls without market orders leave nothing that is filled. -/
theorem Effect.live (h : v.Effect call trades v') (hv : v.Sound)
    (hty : ∀ n, call = .newOrder n → n.type ≠ .market) (hlive : v.All (0 < ·.remaining)) :
    v'.All (0 < ·.remaining) := by
  cases h with
  | refused _ => exact hlive
  | @rested n hacc _ _ =>
    intro o ho
    rcases List.mem_append.mp ho with ho | ho
    · exact hlive o ho
    · rw [List.mem_singleton.mp ho, n.remaining_order]
      exact hacc.valid.quantity_pos
  | @matched n _ w _ i hacc _ hmatched hsettled =>
    have hsound := hv.enter hacc
    have hmem : n.order ∈ (v.enter n.order).orders := by simp [enter, place]
    have hbut : (v.enter n.order).LiveBut n.order.id := by
      intro o ho hne
      rcases List.mem_append.mp ho with ho | ho
      · exact hlive o ho
      · exact absurd (congrArg Order.id (List.mem_singleton.mp ho)) hne
    have hw := hmatched.liveBut hsound hbut
    obtain ⟨hwsound, hi⟩ := hmatched.sound hsound hmem
    obtain ⟨filled, hfilled⟩ := hmatched.taker
    have hid : i.id = n.order.id := by rw [hfilled]; rfl
    rw [Settled] at hsettled
    split at hsettled
    · intro o ho
      obtain ⟨ho, hne⟩ := hsettled.mem_iff.mp ho
      exact hw o ho (hid ▸ hne)
    · rename_i hrest
      rw [hsettled]
      intro o ho
      by_cases hoi : o.id = i.id
      · rw [hwsound.eq_of_id ho hi hoi]
        by_contra hle
        exact hrest (iff_of_false (hty n rfl) hle)
      · exact hw o ho (hid ▸ hoi)
  | cancelled ho hdrop => exact fun o ho => hlive o (hdrop.mem_iff.mp ho).1
  | notFound _ => exact hlive
  | modified ho hpos hle hmod =>
    cases hmod with
    | inPlace _ =>
      intro o ho
      obtain ⟨x, hx, rfl⟩ := mem_amend.mp ho
      split
      · rw [Order.remaining_shrink]
        exact hpos
      · exact hlive x hx
    | moved _ hdrop =>
      intro o ho
      rcases List.mem_append.mp ho with ho | ho
      · exact hlive o (hdrop.mem_iff.mp ho).1
      · rw [List.mem_singleton.mp ho, remaining_reentry]
        exact hpos
  | unmodified _ => exact hlive

/-- Calls other than market orders that enter what the book can hold keep a view regular. -/
theorem Effect.regular_of_enters (h : v.Effect call trades v')
    (hty : ∀ n, call = .newOrder n → n.type ≠ .market) (hfits : v.Enters Fit call)
    (hv : v.Regular) : v'.Regular :=
  ⟨h.invariant hv.sound Fit Ordered hfits (Change.ordered id) hv.toOrdered,
    h.live hv.sound hty hv.live⟩

/-- Proper calls keep a view regular. -/
theorem Effect.regular (h : v.Effect call trades v') (hcall : call.Proper) (hv : v.Regular) :
    v'.Regular := by
  refine h.regular_of_enters (fun n hn => ?_) (hcall.enters hv.sides) hv
  subst hn
  exact hcall.2.1

end BookView

end LiquidityArena

import LiquidityArena.View.Changes

/-!
# Depth counters

A depth counter is balanced for a measure of orders when it is the sum of the
measure over the queue of its level, in 32-bit arithmetic. Each primitive change
keeps a counter balanced when the amount it takes off the counter is the amount
by which the measure of the order falls.
-/

namespace LiquidityArena

namespace BookView

variable {v v' : BookView} {o m : Order} {q : Int} {P : Order → Bool} {w : Order → Int}
  {s : Bool} {t : Int}

/-- The measure summed over the orders of a class. -/
def sumOver (v : BookView) (P : Order → Bool) (w : Order → Int) : Int :=
  ((v.orders.filter P).map w).sum

/-- The class looks only at where an order stands. -/
structure ByPlace (P : Order → Bool) : Prop where
  fill : ∀ x q, P (Order.fill x q) = P x
  shrink : ∀ x n, P (Order.shrink x n) = P x

/-- The measure summed over the queue of a level. -/
def depth (v : BookView) (w : Order → Int) (s : Bool) (t : Int) : Int :=
  v.sumOver (fun o => o.At s t) w

/-- The counter of the level is the sum of the measure over its queue. -/
def BalancedAt (v : BookView) (w : Order → Int) (s : Bool) (t : Int) : Prop :=
  v.total s t = toInt32 (v.depth w s t)

/-- Resting at a price is read off the place of an order. -/
theorem byPlace_at : ByPlace fun o => o.At s t := ⟨fun _ _ => rfl, fun _ _ => rfl⟩

/-- Resting on a side is read off the place of an order. -/
theorem byPlace_side : ByPlace fun o => o.side.isBid = s := ⟨fun _ _ => rfl, fun _ _ => rfl⟩

/-- The orders around a listed one have other ids. -/
theorem exists_cut {orders : List Order} (hnd : (orders.map (·.id)).Nodup) (ho : o ∈ orders) :
    ∃ front back, orders = front ++ o :: back ∧ (∀ x ∈ front, x.id ≠ o.id) ∧
      ∀ x ∈ back, x.id ≠ o.id := by
  obtain ⟨front, back, rfl⟩ := List.append_of_mem ho
  rw [List.map_append, List.map_cons, List.nodup_append, List.nodup_cons] at hnd
  refine ⟨front, back, rfl, fun x hx => ?_, fun x hx he => ?_⟩
  · exact hnd.2.2 x.id (List.mem_map_of_mem hx) o.id List.mem_cons_self
  · exact hnd.2.1.1 (he ▸ List.mem_map_of_mem hx)

/-- Amending one order changes the sum by the change of its measure. -/
theorem sum_amend {orders : List Order} {f : Order → Order} (hnd : (orders.map (·.id)).Nodup)
    (ho : o ∈ orders) :
    ((amend orders o.id f).map w).sum = (orders.map w).sum - w o + w (f o) := by
  obtain ⟨front, back, rfl, hfront, hback⟩ := exists_cut hnd ho
  have hamend : amend (front ++ o :: back) o.id f = front ++ f o :: back := by
    have happend : amend (front ++ o :: back) o.id f =
        amend front o.id f ++ f o :: amend back o.id f := by simp [amend]
    rw [happend, amend_eq_self hfront, amend_eq_self hback]
  rw [hamend]
  simp only [List.map_append, List.map_cons, List.sum_append, List.sum_cons]
  omega

/-- Amending one order changes the sum of its class only. -/
theorem sum_filter_amend {orders : List Order} {f : Order → Order} (hf : ∀ x, P (f x) = P x)
    (hnd : (orders.map (·.id)).Nodup) (ho : o ∈ orders) :
    (((amend orders o.id f).filter P).map w).sum =
      ((orders.filter P).map w).sum + if P o = true then w (f o) - w o else 0 := by
  rw [filter_amend hf]
  by_cases hP : P o = true
  · have hmem : o ∈ orders.filter P := List.mem_filter.mpr ⟨ho, hP⟩
    rw [sum_amend (hnd.sublist (List.filter_sublist.map _)) hmem, if_pos hP]
    omega
  · rw [amend_eq_self, if_neg hP, add_zero]
    intro x hx he
    obtain ⟨hx, hPx⟩ := List.mem_filter.mp hx
    exact hP (List.inj_on_of_nodup_map hnd hx ho he ▸ hPx)

/-- Placing an order adds its weight to the sums that count it. -/
theorem sumOver_place (shown : Int) :
    (v.place o shown).sumOver P w = v.sumOver P w + if P o = true then w o else 0 := by
  simp only [sumOver, place, List.filter_append, List.map_append, List.sum_append]
  by_cases hP : P o = true <;> simp [hP]

private theorem sumOver_shrink (hP : ByPlace P) (hv : v.Sound) (ho : o ∈ v.orders) (n : Int) :
    (v.shrink o n).sumOver P w =
      v.sumOver P w + if P o = true then w (o.shrink n) - w o else 0 :=
  sum_filter_amend (f := fun x => x.shrink n) (fun x => hP.shrink x n) hv.distinct ho

/-- A fill moves a sum by the change of weight of its two orders. -/
theorem sumOver_fill {i : Order} (hP : ByPlace P) (hv : v.Sound) (hm : m ∈ v.orders)
    (hi : i ∈ v.orders) (hne : m.id ≠ i.id) :
    (v.fill m i q).sumOver P w = v.sumOver P w +
      (if P m = true then w (m.fill q) - w m else 0) +
      if P i = true then w (i.fill q) - w i else 0 := by
  have hmade : (amend v.orders m.id (·.fill q)).map (·.id) = v.orders.map (·.id) :=
    map_id_amend fun _ => rfl
  have hmem : i ∈ amend v.orders m.id (·.fill q) :=
    mem_amend.mpr ⟨i, hi, by simp [hne.symm]⟩
  have hi' := sum_filter_amend (P := P) (w := w) (f := fun x => x.fill q)
    (fun x => hP.fill x q) (hmade ▸ hv.distinct) hmem
  have hm' := sum_filter_amend (P := P) (w := w) (f := fun x => x.fill q)
    (fun x => hP.fill x q) hv.distinct hm
  exact hi'.trans (congrArg (· + _) hm')

/-- Dropping an order filters it out of every level. -/
theorem Dropped.level_eq (h : v.Dropped o v') (s : Bool) (t : Int) :
    v'.level s t = (v.level s t).filter fun x => x.id != o.id := by
  simp only [level, h.orders, List.filter_filter, Bool.and_comm]

/-- Deleting one order takes its measure off the sum. -/
theorem sum_filter_ne {orders : List Order} (hnd : (orders.map (·.id)).Nodup) (ho : o ∈ orders) :
    ((orders.filter fun x => x.id != o.id).map w).sum = (orders.map w).sum - w o := by
  obtain ⟨front, back, rfl, hfront, hback⟩ := exists_cut hnd ho
  have hkept : ∀ xs : List Order, (∀ x ∈ xs, x.id ≠ o.id) → (xs.filter fun x => x.id != o.id) = xs :=
    fun xs hxs => List.filter_eq_self.mpr fun x hx => by simpa using hxs x hx
  rw [List.filter_append, List.filter_cons_of_neg (by simp), hkept front hfront, hkept back hback]
  simp only [List.map_append, List.map_cons, List.sum_append, List.sum_cons]
  omega

/-- Dropping an order takes its weight off the sums that count it. -/
theorem Dropped.sumOver (h : v.Dropped o v') (hv : v.Sound) (ho : o ∈ v.orders) :
    v'.sumOver P w = v.sumOver P w - if P o = true then w o else 0 := by
  have hswap : v'.orders.filter P = (v.orders.filter P).filter fun x => x.id != o.id := by
    simp only [h.orders, List.filter_filter, Bool.and_comm]
  rw [BookView.sumOver, hswap]
  by_cases hP : P o = true
  · rw [sum_filter_ne (hv.distinct.sublist (List.filter_sublist.map _))
      (List.mem_filter.mpr ⟨ho, hP⟩), if_pos hP]
    rfl
  · rw [List.filter_eq_self.mpr, if_neg hP, sub_zero]
    · rfl
    · intro x hx
      obtain ⟨hx, hPx⟩ := List.mem_filter.mp hx
      rw [bne_iff_ne]
      exact fun he => hP (hv.eq_of_id hx ho he ▸ hPx)

/-- Placing an order adds its weight at its price. -/
theorem depth_place (shown : Int) :
    (v.place o shown).depth w s t = v.depth w s t + if o.At s t then w o else 0 := by
  simpa only [depth, decide_eq_true_eq] using sumOver_place (P := fun o => o.At s t) shown

/-- Shrinking an order moves the depth at its price by the change of weight. -/
theorem depth_shrink (hv : v.Sound) (ho : o ∈ v.orders) (n : Int) :
    (v.shrink o n).depth w s t =
      v.depth w s t + if o.At s t then w (o.shrink n) - w o else 0 := by
  simpa only [depth, decide_eq_true_eq] using
    sumOver_shrink (w := w) (byPlace_at (s := s) (t := t)) hv ho n

/-- A fill moves the depth at the prices of its two orders by their change of weight. -/
theorem depth_fill {i : Order} (hv : v.Sound) (hm : m ∈ v.orders) (hi : i ∈ v.orders)
    (hne : m.id ≠ i.id) :
    (v.fill m i q).depth w s t = v.depth w s t + (if m.At s t then w (m.fill q) - w m else 0) +
      if i.At s t then w (i.fill q) - w i else 0 := by
  simpa only [depth, decide_eq_true_eq] using
    sumOver_fill (w := w) (byPlace_at (s := s) (t := t)) hv hm hi hne

/-- Dropping an order takes its weight off the depth at its price. -/
theorem Dropped.depth (h : v.Dropped o v') (hv : v.Sound) (ho : o ∈ v.orders) :
    v'.depth w s t = v.depth w s t - if o.At s t then w o else 0 := by
  simpa only [BookView.depth, decide_eq_true_eq] using h.sumOver (P := fun o => o.At s t) (w := w) hv ho

/-- Entering an order by its measure. -/
theorem BalancedAt.place (h : v.BalancedAt w s t) {shown : Int}
    (hw : o.At s t → w o = shown) : (v.place o shown).BalancedAt w s t := by
  rw [BalancedAt] at h ⊢
  rw [depth_place]
  by_cases hat : o.At s t
  · simp only [BookView.place, hat, if_true, hw hat, h, toInt32_toInt32_add]
  · simp only [BookView.place, hat, if_false, add_zero, h]

/-- A fill that lowers the measure of either order by what it executes. -/
theorem BalancedAt.fill (h : v.BalancedAt w s t) {i : Order} (hv : v.Sound) (hm : m ∈ v.orders)
    (hi : i ∈ v.orders) (hne : m.id ≠ i.id) (hwm : m.At s t → w (m.fill q) = w m - q)
    (hwi : i.At s t → w (i.fill q) = w i - q) : (v.fill m i q).BalancedAt w s t := by
  rw [BalancedAt] at h ⊢
  rw [depth_fill hv hm hi hne]
  by_cases hmat : m.At s t <;> by_cases hiat : i.At s t
  · simp only [BookView.fill, hmat, hiat, if_true, hwm hmat, hwi hiat, h, toInt32_toInt32_sub]
    congr 1
    omega
  · simp only [BookView.fill, hmat, hiat, if_true, if_false, hwm hmat, h, toInt32_toInt32_sub]
    congr 1
    omega
  · simp only [BookView.fill, hmat, hiat, if_true, if_false, hwi hiat, h, toInt32_toInt32_sub]
    congr 1
    omega
  · simp only [BookView.fill, hmat, hiat, if_false, h, add_zero]

/-- A reduction that lowers the measure by what it takes off. -/
theorem BalancedAt.shrink (h : v.BalancedAt w s t) (hv : v.Sound) (ho : o ∈ v.orders) {n : Int}
    (hw : o.At s t → w (o.shrink n) = w o - (o.remaining - n)) :
    (v.shrink o n).BalancedAt w s t := by
  rw [BalancedAt] at h ⊢
  rw [depth_shrink hv ho]
  by_cases hat : o.At s t
  · simp only [BookView.shrink, hat, if_true, hw hat, h, toInt32_toInt32_sub]
    congr 1
    omega
  · simp only [BookView.shrink, hat, if_false, h, add_zero]

/-- A level left without orders is balanced: its counter is gone. -/
theorem Dropped.balancedAt_of_nil (h : v.Dropped o v') (hat : o.At s t)
    (hnil : v'.level s t = []) : v'.BalancedAt w s t := by
  rw [BalancedAt, h.total, if_pos hat, if_pos hnil, BookView.depth, BookView.sumOver]
  rw [show v'.orders.filter (fun o => decide (o.At s t)) = [] from hnil]
  rfl

/-- A drop of an order whose measure is all that remains of it. -/
theorem Dropped.balancedAt (h : v.Dropped o v') (hv : v.Sound) (ho : o ∈ v.orders)
    (hb : v.BalancedAt w s t) (hw : o.At s t → w o = o.remaining ∨ v'.level s t = []) :
    v'.BalancedAt w s t := by
  by_cases hat : o.At s t
  · by_cases hnil : v'.level s t = []
    · exact h.balancedAt_of_nil hat hnil
    · rw [BalancedAt] at hb ⊢
      rw [h.total, if_pos hat, if_neg hnil, h.depth hv ho, if_pos hat,
        (hw hat).resolve_right hnil, hb, toInt32_toInt32_sub]
  · rw [BalancedAt] at hb ⊢
    rw [h.total, if_neg hat, h.depth hv ho, if_neg hat, sub_zero, hb]

/-- Where every order is measured by its remainder, all four changes keep the balance. -/
theorem Change.balanced {Fits : Order → Prop} (h : Change Fits v v') (hv : v.Sound)
    (hfits : ∀ {o}, Fits o → o.remaining = entryDepth o)
    (hb : ∀ s t, v.BalancedAt Order.remaining s t) (s : Bool) (t : Int) :
    v'.BalancedAt Order.remaining s t := by
  cases h with
  | enter hf _ _ => exact (hb s t).place fun _ => hfits hf
  | fill hm ht hne _ _ _ =>
    exact (hb s t).fill hv hm ht hne (fun _ => Order.remaining_fill ..)
      fun _ => Order.remaining_fill ..
  | drop ho hdrop => exact hdrop.balancedAt hv ho (hb s t) fun _ => Or.inl rfl
  | shrink ho _ _ =>
    refine (hb s t).shrink hv ho fun _ => ?_
    rw [Order.remaining_shrink]
    omega

/-- Only an order that enters at a level adds to what remains there. -/
theorem Change.depth_le {Fits : Order → Prop} (h : Change Fits v v') (hv : v.Sound)
    (hfits : ∀ {o}, Fits o → ¬ o.At s t) :
    v'.depth Order.remaining s t ≤ v.depth Order.remaining s t := by
  cases h with
  | enter hf _ _ => rw [BookView.enter, depth_place, if_neg (hfits hf), add_zero]
  | fill hm ht hne hq _ _ =>
    rw [depth_fill hv hm ht hne, Order.remaining_fill, Order.remaining_fill]
    split_ifs <;> omega
  | drop ho hdrop =>
    have hnonneg := hv.nonneg _ ho
    rw [hdrop.depth hv ho]
    split_ifs <;> omega
  | shrink ho _ hle =>
    rw [depth_shrink hv ho, Order.remaining_shrink]
    split_ifs <;> omega

/-- A call that enters nothing at a price leaves no more there than before. -/
theorem Effect.depth_le {trades : List (Order × Int)} {call : Call} (h : v.Effect call trades v')
    (hv : v.Sound) (hfits : v.Enters (¬ ·.At s t) call) :
    v'.depth Order.remaining s t ≤ v.depth Order.remaining s t := by
  have hboth := h.invariant hv (¬ ·.At s t)
    (fun w => w.Sound ∧ w.depth Order.remaining s t ≤ v.depth Order.remaining s t) hfits
    (fun hchange hw => ⟨hchange.sound hw.1, (hchange.depth_le hw.1 id).trans hw.2⟩) ⟨hv, le_rfl⟩
  exact hboth.2

/-- Limit orders keep all orders limit orders and the counters of the levels exact. -/
theorem Effect.limit_balanced {trades : List (Order × Int)} {call : Call}
    (h : v.Effect call trades v') (hv : v.Sound) (hcall : ∀ n, call = .newOrder n → n.type = .limit)
    (hlimit : v.All (·.type = .limit)) (hb : ∀ s t, v.BalancedAt Order.remaining s t) :
    v'.All (·.type = .limit) ∧ ∀ s t, v'.BalancedAt Order.remaining s t := by
  -- An entering order is a limit order of which nothing is filled yet.
  have hkept := h.invariant hv (fun o => o.type = .limit ∧ o.filledQuantity = 0)
    (fun w => w.Sound ∧ w.All (·.type = .limit) ∧ ∀ s t, w.BalancedAt Order.remaining s t)
    ?_ ?_ ⟨hv, hlimit, hb⟩
  · exact hkept.2
  · cases call with
    | newOrder n =>
      intro _
      refine ⟨?_, n.filledQuantity_order⟩
      rw [n.type_order]
      simp [hcall n rfl]
    | cancel id => trivial
    | modify id price qty =>
      intro o ho _ _ _ _
      simp [reentry, hlimit o ho, OrderBook.limitOrder]
  · intro w w' hchange hw
    refine ⟨hchange.sound hw.1, hchange.all (fun hf => hf.1) id id hw.2.1,
      hchange.balanced hw.1 (fun hf => ?_) hw.2.2⟩
    simp [entryDepth, hf.1, hf.2, Order.remaining]

end BookView

end LiquidityArena

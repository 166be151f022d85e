import LiquidityArena.View.Effects

/-!
# Calls as chains of primitive changes

Every effect is a chain of four primitive changes: an order is entered, a fill is
executed, an order is dropped, an order is reduced in place. An invariant of the
book is proved for the four changes and holds over calls and runs. The invariants
of the cached best prices are proved here in this way.
-/

namespace LiquidityArena

open OrderBook

namespace BookView

variable {v v' w : BookView} {i i' m o : Order} {q : Int} {trades : List (Order × Int)}

/-- One primitive change; every order that enters has the property `Fits`. -/
inductive Change (Fits : Order → Prop) : BookView → BookView → Prop
  | enter {v : BookView} {o : Order} : Fits o → (∀ x ∈ v.orders, x.id ≠ o.id) →
      0 < o.remaining → Change Fits v (v.enter o)
  | fill {v : BookView} {m t : Order} {q : Int} : m ∈ v.orders → t ∈ v.orders → m.id ≠ t.id →
      0 ≤ q → q ≤ m.remaining → q ≤ t.remaining → Change Fits v (v.fill m t q)
  | drop {v v' : BookView} {o : Order} : o ∈ v.orders → v.Dropped o v' → Change Fits v v'
  | shrink {v : BookView} {o : Order} {n : Int} : o ∈ v.orders → 0 < n → n ≤ o.remaining →
      Change Fits v (v.shrink o n)

/-- A chain of primitive changes. -/
abbrev Changes (Fits : Order → Prop) : BookView → BookView → Prop :=
  Relation.ReflTransGen (Change Fits)

/-- The order a call would enter into the view, if it enters one, has the property. -/
def Enters (v : BookView) (Fits : Order → Prop) : Call → Prop
  | .newOrder n => v.Accepts n → Fits n.order
  | .cancel _ => True
  | .modify id price qty => ∀ o ∈ v.orders, o.id = id → 0 < qty → qty ≤ o.remaining →
      price ≠ o.price → Fits (reentry o price qty)

/-- A trade leaves the incoming order in the book. -/
theorem Trade.taker_mem (h : v.Trade i m q v') (hv : v.Sound) : i.fill q ∈ v'.orders := by
  have hmem : i.fill q ∈ (v.fill m i q).orders := by
    rw [orders_fill (h.id_ne hv), List.mem_map]
    exact ⟨i, h.taker, by simp⟩
  rcases h.after_cases with ⟨-, hdrop⟩ | ⟨-, -, rfl⟩
  · exact hdrop.mem_iff.mpr ⟨hmem, (h.id_ne hv).symm⟩
  · exact hmem

/-- A trade is a fill, after which a filled maker is dropped. -/
theorem Trade.changes (h : v.Trade i m q v') (hv : v.Sound) (Fits : Order → Prop) :
    Changes Fits v v' := by
  obtain ⟨hq, hqi, hqm⟩ := h.qty_bounds hv
  have hfill : Change Fits v (v.fill m i q) :=
    .fill h.maker_at.1 h.taker (h.id_ne hv) hq hqm hqi
  rcases h.after_cases with ⟨-, hdrop⟩ | ⟨-, -, rfl⟩
  · have hmem := h.maker_mem hv
    exact (Relation.ReflTransGen.single hfill).tail (.drop hmem hdrop)
  · exact .single hfill

/-- The trades of a loop keep the view sound and the incoming order in the book. -/
theorem Matched.sound (h : v.Matched i trades v' i') (hv : v.Sound) (hi : i ∈ v.orders) :
    v'.Sound ∧ i' ∈ v'.orders := by
  induction h with
  | stop _ => exact ⟨hv, hi⟩
  | step htrade _ ih => exact ih (htrade.sound hv) (htrade.taker_mem hv)

/-- A matching pass is a sequence of changes. -/
theorem Matched.changes (h : v.Matched i trades v' i') (hv : v.Sound) (Fits : Order → Prop) :
    Changes Fits v v' := by
  induction h with
  | stop _ => exact .refl
  | step htrade _ ih => exact (htrade.changes hv Fits).trans (ih (htrade.sound hv))

/-- Every effect is a chain of primitive changes. -/
theorem Effect.changes {call : Call} (h : v.Effect call trades v') (hv : v.Sound)
    {Fits : Order → Prop} (hfits : v.Enters Fits call) : Changes Fits v v' := by
  cases h with
  | refused _ => exact .refl
  | rested hacc _ _ =>
    exact .single (.enter (hfits hacc) (by simpa using hacc.fresh)
      (by simpa using hacc.valid.quantity_pos))
  | @matched n _ w _ i hacc _ hmatched hsettled =>
    have henter : Change Fits v (v.enter n.order) :=
      .enter (hfits hacc) (by simpa using hacc.fresh) (by simpa using hacc.valid.quantity_pos)
    have hsound := hv.enter hacc
    have hmem : n.order ∈ (v.enter n.order).orders := by simp [enter, place]
    have hw : Changes Fits v w := (Relation.ReflTransGen.single henter).trans
      (hmatched.changes hsound Fits)
    rw [Settled] at hsettled
    split at hsettled
    · exact hw.tail (.drop (hmatched.sound hsound hmem).2 hsettled)
    · rwa [hsettled]
  | cancelled ho hdrop => exact .single (.drop ho hdrop)
  | notFound _ => exact .refl
  | modified ho hpos hle hmod =>
    cases hmod with
    | inPlace _ => exact .single (.shrink ho hpos hle)
    | moved hne hdrop =>
      refine (Relation.ReflTransGen.single (.drop ho hdrop)).tail
        (.enter (hfits _ ho rfl hpos hle hne) (fun x hx => ?_) (by simpa using hpos))
      rw [id_reentry]
      exact (hdrop.mem_iff.mp hx).2
  | unmodified _ => exact .refl

/-- An invariant of the four changes is kept by chains of them. -/
theorem Changes.invariant {Fits : Order → Prop} (h : Changes Fits v v') (Inv : BookView → Prop)
    (hchange : ∀ {v v'}, Change Fits v v' → Inv v → Inv v') (hi : Inv v) : Inv v' := by
  induction h with
  | refl => exact hi
  | tail _ hlast ih => exact hchange hlast ih

/-- An invariant of the four changes is kept by every effect. -/
theorem Effect.invariant {call : Call} (h : v.Effect call trades v') (hv : v.Sound)
    (Fits : Order → Prop) (Inv : BookView → Prop) (hfits : v.Enters Fits call)
    (hchange : ∀ {v v'}, Change Fits v v' → Inv v → Inv v') (hi : Inv v) : Inv v' :=
  Changes.invariant (h.changes hv hfits) Inv hchange hi

/-- The four changes keep a view sound. -/
theorem Change.sound {Fits : Order → Prop} (h : Change Fits v v') (hv : v.Sound) : v'.Sound := by
  cases h with
  | enter _ hfresh hrem => exact hv.place hfresh hrem.le _
  | fill hm ht hne _ hqm hqt => exact hv.fill hm ht hne hqm hqt
  | drop _ hdrop => exact hdrop.sound hv
  | shrink _ hn _ => exact hv.shrink _ hn.le

/-- Every order of the view has the property. -/
def All (v : BookView) (P : Order → Prop) : Prop := ∀ o ∈ v.orders, P o

/-- A property of orders that does not look at quantities is an invariant. -/
theorem Change.all {Fits P : Order → Prop} (h : Change Fits v v') (hP : ∀ {o}, Fits o → P o)
    (hfill : ∀ {o : Order} {q}, P o → P (o.fill q))
    (hshrink : ∀ {o : Order} {n}, P o → P (o.shrink n)) (hi : v.All P) : v'.All P := by
  intro x hx
  cases h with
  | enter hfits _ _ =>
    rcases List.mem_append.mp hx with hx | hx
    · exact hi x hx
    · rw [List.mem_singleton.mp hx]
      exact hP hfits
  | fill hm ht hne _ _ _ =>
    rw [orders_fill hne, List.mem_map] at hx
    obtain ⟨y, hy, rfl⟩ := hx
    split
    · exact hfill (hi y hy)
    · exact hi y hy
  | drop _ hdrop => exact hi x (hdrop.mem_iff.mp hx).1
  | shrink _ _ _ =>
    obtain ⟨y, hy, rfl⟩ := mem_amend.mp hx
    split
    · exact hshrink (hi y hy)
    · exact hi y hy

/-- A property that an order keeps while less of it remains is an invariant. -/
theorem Change.all_reduced {Fits P : Order → Prop} (h : Change Fits v v') (hv : v.Sound)
    (hP : ∀ {o}, Fits o → P o) (hreduced : ∀ {o o' : Order}, P o → o.Reduced o' → P o')
    (hi : v.All P) : v'.All P := by
  intro x hx
  cases h with
  | enter hfits _ _ =>
    rcases List.mem_append.mp hx with hx | hx
    · exact hi x hx
    · rw [List.mem_singleton.mp hx]
      exact hP hfits
  | fill hm ht hne hq _ _ =>
    rw [orders_fill hne, List.mem_map] at hx
    obtain ⟨y, hy, rfl⟩ := hx
    split
    · exact hreduced (hi y hy) (y.reduced_fill hq)
    · exact hi y hy
  | drop _ hdrop => exact hi x (hdrop.mem_iff.mp hx).1
  | shrink ho _ hn =>
    obtain ⟨y, hy, rfl⟩ := mem_amend.mp hx
    split
    · rename_i hid
      exact hreduced (hi y hy) (y.reduced_shrink (hv.eq_of_id hy ho hid ▸ hn))
    · exact hi y hy

/-- A property of orders that does not look at quantities survives a trade. -/
theorem Trade.all {P : Order → Prop} (h : v.Trade i m q v') (hv : v.Sound)
    (hfill : ∀ {o : Order} {q}, P o → P (o.fill q))
    (hshrink : ∀ {o : Order} {n}, P o → P (o.shrink n)) (hi : v.All P) : v'.All P :=
  Changes.invariant (h.changes hv fun _ => False) (·.All P)
    (fun hchange => hchange.all False.elim hfill hshrink) hi

/-- What fills and shrinks preserve holds of every order after a pass. -/
theorem Matched.all {P : Order → Prop} (h : v.Matched i trades v' i') (hv : v.Sound)
    (hfill : ∀ {o : Order} {q}, P o → P (o.fill q))
    (hshrink : ∀ {o : Order} {n}, P o → P (o.shrink n)) (hi : v.All P) : v'.All P := by
  induction h with
  | stop _ => exact hi
  | step htrade _ ih => exact ih (htrade.sound hv) (htrade.all hv hfill hshrink hi)

/-- Some order rests at the side and price. -/
def Occupied (v : BookView) (s : Bool) (t : Int) : Prop := ∃ o ∈ v.orders, o.At s t

/-- A price is occupied when an order of the side has it. -/
theorem occupied_iff {s : Bool} {t : Int} : v.Occupied s t ↔ ∃ o ∈ v.side s, o.price = t := by
  simp only [Occupied, Order.At, mem_side, and_assoc]

/-- A level has orders exactly when its price is occupied. -/
theorem level_ne_nil_iff {s : Bool} {t : Int} : v.level s t ≠ [] ↔ v.Occupied s t := by
  simp only [ne_eq, List.eq_nil_iff_forall_not_mem, mem_level, Occupied, not_forall, not_not]

/-- Placing an order occupies its price and no other. -/
theorem occupied_place {shown : Int} {s : Bool} {t : Int} :
    (v.place o shown).Occupied s t ↔ v.Occupied s t ∨ o.At s t := by
  simp only [Occupied, place, List.mem_append, List.mem_singleton]
  constructor
  · rintro ⟨x, hx | rfl, hat⟩
    · exact Or.inl ⟨x, hx, hat⟩
    · exact Or.inr hat
  · rintro (⟨x, hx, hat⟩ | hat)
    · exact ⟨x, Or.inl hx, hat⟩
    · exact ⟨o, Or.inr rfl, hat⟩

/-- An amendment that moves no order occupies the same levels. -/
theorem exists_amend_at {orders : List Order} {id : OrderId} {f : Order → Order}
    (hf : ∀ o s t, (f o).At s t ↔ o.At s t) {s : Bool} {t : Int} :
    (∃ o ∈ amend orders id f, o.At s t) ↔ ∃ o ∈ orders, o.At s t := by
  constructor
  · rintro ⟨x, hx, hat⟩
    obtain ⟨y, hy, rfl⟩ := mem_amend.mp hx
    refine ⟨y, hy, ?_⟩
    split at hat
    · exact (hf _ _ _).mp hat
    · exact hat
  · rintro ⟨y, hy, hat⟩
    refine ⟨_, mem_amend.mpr ⟨y, hy, rfl⟩, ?_⟩
    split
    · exact (hf _ _ _).mpr hat
    · exact hat

/-- A fill leaves the occupied prices as they were. -/
theorem occupied_fill {m t : Order} {s : Bool} {p : Int} :
    (v.fill m t q).Occupied s p ↔ v.Occupied s p :=
  (exists_amend_at (f := fun o => o.fill q) fun _ _ _ => Iff.rfl).trans
    (exists_amend_at (f := fun o => o.fill q) fun _ _ _ => Iff.rfl)

/-- Shrinking an order leaves the occupied prices as they were. -/
theorem occupied_shrink {n : Int} {s : Bool} {p : Int} :
    (v.shrink o n).Occupied s p ↔ v.Occupied s p :=
  exists_amend_at (f := fun o => o.shrink n) fun _ _ _ => Iff.rfl

/-- Dropping an order occupies no new price. -/
theorem Dropped.occupied (h : v.Dropped o v') {s : Bool} {t : Int} (ho : v'.Occupied s t) :
    v.Occupied s t := by
  obtain ⟨x, hx, hat⟩ := ho
  exact ⟨x, (h.mem_iff.mp hx).1, hat⟩

/-- The cached best price of the side is the sentinel or the price of some order. -/
def Anchored (v : BookView) (s : Bool) : Prop := v.best s = invalidPrice ∨ v.Occupied s (v.best s)

/-- A side with an order has a cached best price, and no order beats it. -/
def Topped (v : BookView) (s : Bool) : Prop :=
  ∀ t, v.Occupied s t → v.best s ≠ invalidPrice ∧ ¬ Better s t (v.best s)

variable {s : Bool}

/-- Dropping an order leaves the best price anchored, if the last order there has a named side. -/
theorem Dropped.anchored (h : v.Dropped o v') (huniq : ∀ x ∈ v.orders, x.id = o.id → x = o)
    (hnamed : o.side.isBid = s → o.price = v.best s → v'.level s o.price = [] → o.side.Named)
    (ha : v.Anchored s) : v'.Anchored s := by
  have hbest := h.best s
  split at hbest
  · rcases hbest.mem with hinv | hocc
    · exact Or.inl hinv
    · exact Or.inr (occupied_iff.mpr hocc)
  · rename_i hkeep
    rw [Anchored, hbest]
    refine Or.imp_right ?_ ha
    rintro ⟨x, hx, hat⟩
    by_cases hxo : x.id = o.id
    · -- The anchor itself leaves, so its level must still hold another order.
      rw [huniq x hx hxo] at hat
      have hne : v'.level s o.price ≠ [] := by
        intro hnil
        refine hkeep ⟨?_, hat.2, hnil⟩
        rw [(hnamed hat.1 hat.2 hnil).eq_ofBid, hat.1]
      rw [← hat.2]
      exact level_ne_nil_iff.mp hne
    · exact ⟨x, h.mem_iff.mpr ⟨hx, hxo⟩, hat⟩

/-- Dropping an order leaves the best price on top, without orders at the sentinel. -/
theorem Dropped.topped (h : v.Dropped o v') (ht : v.Topped s)
    (hprice : ¬ v'.Occupied s invalidPrice) : v'.Topped s := by
  intro t hocc
  have hbest := h.best s
  split at hbest
  · obtain ⟨hinv, htop⟩ := hbest.exact fun x hx he =>
      hprice (occupied_iff.mpr ⟨x, hx, he⟩)
    obtain ⟨x, hx, rfl⟩ := occupied_iff.mp hocc
    refine ⟨fun he => ?_, htop x hx⟩
    rw [hinv he] at hx
    exact absurd hx List.not_mem_nil
  · rw [hbest]
    exact ht t (h.occupied hocc)

/-- Placing an order keeps the side anchored. -/
theorem Anchored.place (ha : v.Anchored s) (o : Order) (shown : Int) :
    (v.place o shown).Anchored s := by
  rw [Anchored]
  by_cases hraise : s = o.side.isBid ∧ (v.best s = invalidPrice ∨ Better s o.price (v.best s))
  · have hbest : (v.place o shown).best s = o.price := if_pos hraise
    rw [hbest]
    exact Or.inr (occupied_place.mpr (Or.inr ⟨hraise.1.symm, rfl⟩))
  · have hbest : (v.place o shown).best s = v.best s := if_neg hraise
    rw [hbest]
    exact Or.imp_right (fun hocc => occupied_place.mpr (Or.inl hocc)) ha

/-- Placing an order at a real price keeps the best price on top. -/
theorem Topped.place (ht : v.Topped s) {o : Order}
    (hprice : o.side.isBid = s → o.price ≠ invalidPrice) (shown : Int) :
    (v.place o shown).Topped s := by
  intro t hocc
  by_cases hraise : s = o.side.isBid ∧ (v.best s = invalidPrice ∨ Better s o.price (v.best s))
  · have hbest : (v.place o shown).best s = o.price := if_pos hraise
    rw [hbest]
    refine ⟨hprice hraise.1.symm, ?_⟩
    rcases occupied_place.mp hocc with hold | hat
    · obtain ⟨hne, hnb⟩ := ht t hold
      exact fun hb => hnb (hb.trans (hraise.2.resolve_left hne))
    · rw [← hat.2]
      exact better_irrefl s o.price
  · have hbest : (v.place o shown).best s = v.best s := if_neg hraise
    rw [hbest]
    rcases occupied_place.mp hocc with hold | hat
    · exact ht t hold
    · rw [← hat.2]
      exact ⟨fun he => hraise ⟨hat.1.symm, Or.inl he⟩, fun hb => hraise ⟨hat.1.symm, Or.inr hb⟩⟩

/-- Orders of named sides keep the best price anchored. -/
theorem Change.anchored {Fits : Order → Prop} (h : Change Fits v v') (hv : v.Sound)
    (hnamed : v.All fun o => o.side.isBid = s → o.side.Named) (ha : v.Anchored s) :
    v'.Anchored s := by
  cases h with
  | enter _ _ _ => exact ha.place _ _
  | fill _ _ _ _ _ _ => exact Or.imp_right occupied_fill.mpr ha
  | drop ho hdrop =>
    exact hdrop.anchored (fun x hx => hv.eq_of_id hx ho) (fun hs _ _ => hnamed _ ho hs) ha
  | shrink _ _ _ => exact Or.imp_right occupied_shrink.mpr ha

/-- Orders away from the sentinel price keep the best price on top. -/
theorem Change.topped {Fits : Order → Prop} (h : Change Fits v v')
    (hfits : ∀ {o}, Fits o → o.side.isBid = s → o.price ≠ invalidPrice)
    (hprice : ¬ v.Occupied s invalidPrice) (ht : v.Topped s) : v'.Topped s := by
  cases h with
  | enter hf _ _ => exact ht.place (hfits hf) _
  | fill _ _ _ _ _ _ => exact fun t hocc => ht t (occupied_fill.mp hocc)
  | drop _ hdrop => exact hdrop.topped ht fun hocc => hprice (hdrop.occupied hocc)
  | shrink _ _ _ => exact fun t hocc => ht t (occupied_shrink.mp hocc)

/-- What calls of orders that may rest guarantee of a view, also between the trades of a call. -/
structure Ordered (v : BookView) : Prop where
  sound : v.Sound
  sides : v.All (·.side.Named)
  prices : v.All (invalidPrice < ·.price)
  anchored : ∀ s, v.Anchored s
  topped : ∀ s, v.Topped s

/-- An order with a side and a price that the book can hold. -/
def Fit (o : Order) : Prop := o.side.Named ∧ invalidPrice < o.price

/-- In an ordered book nobody rests at the sentinel price. -/
theorem Ordered.not_occupied (h : v.Ordered) : ¬ v.Occupied s invalidPrice := by
  rintro ⟨o, ho, hat⟩
  have hlt : invalidPrice < o.price := h.prices o ho
  rw [hat.2] at hlt
  exact lt_irrefl _ hlt

/-- A change that places only fitting orders keeps the book ordered. -/
theorem Change.ordered {Fits : Order → Prop} (hfits : ∀ {o}, Fits o → Fit o)
    (h : Change Fits v v') (hv : v.Ordered) : v'.Ordered where
  sound := h.sound hv.sound
  sides := h.all (fun hf => (hfits hf).1) (fun ho => ho) (fun ho => ho) hv.sides
  prices := h.all (fun hf => (hfits hf).2) (fun ho => ho) (fun ho => ho) hv.prices
  anchored _ := h.anchored hv.sound (fun o ho _ => hv.sides o ho) (hv.anchored _)
  topped _ := h.topped (fun hf _ => (hfits hf).2.ne') hv.not_occupied
    (hv.topped _)

/-- Entering an accepted order that the book can hold. -/
theorem Ordered.enter (hv : v.Ordered) {n : NewOrder} (hacc : v.Accepts n) (hfit : Fit n.order) :
    (v.enter n.order).Ordered :=
  Change.ordered id (.enter hfit (by simpa using hacc.fresh)
    (by simpa using hacc.valid.quantity_pos)) hv

/-- A trade enters nothing, so it keeps whatever the other changes keep. -/
theorem Trade.ordered (h : v.Trade i m q v') (hv : v.Ordered) : v'.Ordered :=
  Changes.invariant (h.changes hv.sound fun _ => False) Ordered
    (Change.ordered fun hf => hf.elim) hv

/-- A matching pass keeps the book ordered. -/
theorem Matched.ordered (h : v.Matched i trades v' i') (hv : v.Ordered) : v'.Ordered := by
  induction h with
  | stop _ => exact hv
  | step htrade _ ih => exact ih (htrade.ordered hv)

/-- Where the best price is anchored and on top, it is missing exactly on an empty side. -/
theorem best_eq_invalid_iff (ha : v.Anchored s) (ht : v.Topped s) :
    v.best s = invalidPrice ↔ v.side s = [] := by
  rw [List.eq_nil_iff_forall_not_mem]
  constructor
  · intro hinv o ho
    exact (ht o.price (occupied_iff.mpr ⟨o, ho, rfl⟩)).1 hinv
  · intro hnil
    rcases ha with hinv | hocc
    · exact hinv
    · obtain ⟨o, ho, -⟩ := occupied_iff.mp hocc
      exact absurd ho (hnil o)

/-- A price that some order has and none beats is the cached best price. -/
theorem Topped.best_eq (ht : v.Topped s) (ha : v.Anchored s) {t : Int} (hocc : v.Occupied s t)
    (htop : ∀ t', v.Occupied s t' → ¬ Better s t' t) : v.best s = t := by
  obtain ⟨hne, hnb⟩ := ht t hocc
  exact eq_of_not_better (htop _ (ha.resolve_left hne)) hnb

/-- The cached best price is determined by the prices of the side. -/
theorem Topped.best_unique (ht : v.Topped s) (ha : v.Anchored s) (ht' : v'.Topped s)
    (ha' : v'.Anchored s) (hocc : ∀ t, v'.Occupied s t ↔ v.Occupied s t) :
    v'.best s = v.best s := by
  by_cases hinv : v.best s = invalidPrice
  · rw [hinv]
    refine ha'.resolve_right fun hocc' => ?_
    exact (ht _ ((hocc _).mp hocc')).1 hinv
  · have hbest := ha.resolve_left hinv
    exact ht'.best_eq ha' ((hocc _).mpr hbest) fun t ht'' => (ht t ((hocc t).mp ht'')).2

end BookView

end LiquidityArena

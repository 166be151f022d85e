import LiquidityArena.View.BookRep

/-!
# The book operations as changes of view

Entering an order, dropping one and reducing one keep the representation
invariant, and each is exactly the primitive change of view of the same name.
-/

namespace LiquidityArena

namespace OrderBook

variable {b b' : OrderBook} {pool pool' : ObjectPool Order maxOrders} {ps ps' : List Ptr} {p : Ptr}

/-- The queues after a slot is appended. -/
theorem queueAt_append {o : Order} (hps : ∀ x ∈ ps, (pool'.get x).unlink = (pool.get x).unlink)
    (hp : (pool'.get p).unlink = o) (s : Bool) (t : Int) :
    queueAt pool' (ps ++ [p]) s t = queueAt pool ps s t ++ if o.At s t then [p] else [] := by
  have hat : (pool'.get p).At s t ↔ o.At s t := by rw [← hp, Order.at_unlink]
  rw [← queueAt_congr pool hps]
  by_cases h : o.At s t <;> simp [queueAt, List.filter_append, hat, h]

/-- What entering an order leaves in the pool, for an order without links. -/
theorem place_pool {fresh : ObjectPool Order maxOrders} {level : PriceLevel} {q : List Ptr}
    {o : Order} (shown : Int) (ho : o.unlink = o) (hq : level.Holds pool q) (hpq : p ∉ q)
    (hget : ∀ x, fresh.get x = if x = p then default else pool.get x) :
    let pushed := level.pushBack (fresh.set p { o with quantity := shown }) p
    let pool' := pushed.2.modify p fun x => { x with quantity := o.quantity }
    pushed.1.Holds pool' (q ++ [p]) ∧ (pool'.get p).unlink = o ∧
      (∀ x, x ≠ p → (pool'.get x).unlink = (pool.get x).unlink) ∧
      ∀ x, x ≠ p → x ∉ q → pool'.get x = pool.get x := by
  intro pushed pool'
  have hset : ∀ x, x ≠ p → (fresh.set p { o with quantity := shown }).get x = pool.get x := by
    intro x hx
    rw [ObjectPool.get_set_of_ne _ _ hx, hget, if_neg hx]
  have hne : ∀ x ∈ q, x ≠ p := fun x hx e => hpq (e ▸ hx)
  have hq1 : level.Holds (fresh.set p { o with quantity := shown }) q :=
    hq.congr (fun x hx => by rw [hset x (hne x hx)]) fun x hx => by rw [hset x (hne x hx)]
  have htail : level.tail ≠ some p := fun e => hpq (List.mem_of_getLast? (hq.tail ▸ e))
  have hmod : ∀ x, x ≠ p → pool'.get x = pushed.2.get x := fun x hx =>
    ObjectPool.get_modify_of_ne _ _ hx
  have hself : pool'.get p = { pushed.2.get p with quantity := o.quantity } :=
    ObjectPool.get_modify_self ..
  refine ⟨?_, ?_, ?_, ?_⟩
  · refine (hq1.pushBack hpq).congr ?_ ?_ <;>
    · intro x _
      by_cases hx : x = p
      · rw [hx, hself]
      · rw [hmod x hx]
  · have hu := PriceLevel.unlink_pushBack (fresh.set p { o with quantity := shown }) htail p
    rw [ObjectPool.get_set_self] at hu
    have : (pool'.get p).unlink = { (pushed.2.get p).unlink with quantity := o.quantity } := by
      rw [hself]
      rfl
    rw [this, hu]
    exact ho
  · intro x hx
    rw [hmod x hx, PriceLevel.unlink_pushBack _ htail, hset x hx]
  · intro x hx hxq
    rw [hmod x hx, hq1.get_pushBack_of_notMem hpq hxq hx, hset x hx]

/-- The id map after a new id is entered. -/
theorem Stored.map_insert (h : b.Stored ps) {o : Order} (hfresh : b.orderMap.lookup o.id = none)
    (hp : p ∉ ps) (hnew : (pool'.get p).unlink = o)
    (hold : ∀ x ∈ ps, (pool'.get x).unlink = (b.pool.get x).unlink) (id : OrderId) (x : Ptr) :
    (b.orderMap.insert o.id p).lookup id = some x ↔
      x ∈ ps ++ [p] ∧ (pool'.get x).id = id := by
  have hids : ∀ x ∈ ps, (pool'.get x).id = (b.pool.get x).id := fun x hx => by
    rw [← Order.id_unlink, hold x hx, Order.id_unlink]
  have hidp : (pool'.get p).id = o.id := by rw [← Order.id_unlink, hnew]
  by_cases hid : id = o.id
  · subst hid
    rw [AList.lookup_insert, Option.some.injEq, List.mem_append, List.mem_singleton]
    constructor
    · rintro rfl
      exact ⟨Or.inr rfl, hidp⟩
    · rintro ⟨hx | rfl, hxid⟩
      · have := (h.map _ x).mpr ⟨hx, (hids x hx).symm.trans hxid⟩
        rw [hfresh] at this
        simp at this
      · rfl
  · rw [AList.lookup_insert_ne hid, h.map, List.mem_append, List.mem_singleton]
    constructor
    · rintro ⟨hx, hxid⟩
      exact ⟨Or.inl hx, (hids x hx).trans hxid⟩
    · rintro ⟨hx | rfl, hxid⟩
      · exact ⟨hx, (hids x hx).symm.trans hxid⟩
      · exact absurd (hxid.symm.trans hidp) hid

/-- The fields of the book after an order is entered. -/
theorem placeOrder_fields {fresh : ObjectPool Order maxOrders} {o : Order} (shown : Int)
    (hfresh : b.orderMap.lookup o.id = none) (halloc : b.pool.allocate = (some p, fresh)) :
    let level := ((b.levels o.side.isBid).lookup o.price).getD {}
    let pushed := level.pushBack (fresh.set p { o with quantity := shown }) p
    ∃ b', b.placeOrder o shown = (some p, b') ∧
      b'.pool = (pushed.2.modify p fun x => { x with quantity := o.quantity }) ∧
      b'.orderMap = b.orderMap.insert o.id p ∧
      (∀ s t, (b'.levels s).lookup t =
        if o.At s t then some pushed.1 else (b.levels s).lookup t) ∧
      ∀ s, b'.best s =
        if s = o.side.isBid ∧ (b.best s = invalidPrice ∨ Better s o.price (b.best s)) then o.price
        else b.best s := by
  intro level pushed
  refine ⟨(b.placeOrder o shown).2, ?_⟩
  simp only [OrderBook.placeOrder, hfresh, Option.isSome_none, Bool.false_eq_true, if_false, halloc]
  refine ⟨trivial, by simp; rfl, by simp, fun s t => ?_, fun s => ?_⟩
  · rw [levels_raiseBest]
    exact lookup_setLevels_insert { b with pool := _, orderMap := _ } _ _ _ _ _
  · rw [best_raiseBest, best_setLevels]
    rfl

/-- Entering an order with a new id into a pool with room. -/
theorem Stored.placeOrder (h : b.Stored ps) {o : Order} (shown : Int) (ho : o.unlink = o)
    (hfilled : o.filledQuantity = 0)
    (hfresh : b.orderMap.lookup o.id = none) (hroom : ps.length < maxOrders) :
    ∃ p b', b.placeOrder o shown = (some p, b') ∧ p ∉ ps ∧ b'.Stored (ps ++ [p]) ∧
      b'.view (ps ++ [p]) = (b.view ps).place o shown ∧ (b'.pool.get p).unlink = o := by
  obtain ⟨p, fresh, halloc, hp, hlive, hget⟩ := h.live.allocate hroom
  have hslot := h.slots o.side.isBid o.price
  have hpsne : ∀ x ∈ ps, x ≠ p := fun x hx e => hp (e ▸ hx)
  have hpq : p ∉ queueAt b.pool ps o.side.isBid o.price := fun hmem => hp (mem_queueAt.mp hmem).1
  have hmem : p ∈ ps ++ [p] := by simp
  obtain ⟨hholds, hnew, hold, hframe⟩ := place_pool (p := p) shown ho hslot.holds_getD hpq hget
  obtain ⟨b', hplace, hpool, hmap, hlookup, hbest⟩ := placeOrder_fields shown hfresh halloc
  rw [← hpool] at hholds hnew hold hframe
  have hold' := fun x hx => hold x (hpsne x hx)
  have hview : b'.view (ps ++ [p]) = (b.view ps).place o shown := by
    simp only [view, BookView.place, BookView.mk.injEq]
    refine ⟨?_, ?_, funext hbest⟩
    · rw [List.map_append, List.map_singleton, hnew]
      congr 1
      exact List.map_congr_left hold'
    · funext s t
      rw [hlookup]
      by_cases hat : o.At s t
      · obtain ⟨rfl, rfl⟩ := hat
        rw [if_pos ⟨rfl, rfl⟩, if_pos ⟨rfl, rfl⟩]
        simp only [Option.map_some, Option.getD_some, PriceLevel.pushBack, ObjectPool.get_set_self,
          Order.remaining, hfilled, sub_zero]
        cases (b.levels o.side.isBid).lookup o.price <;> rfl
      · rw [if_neg hat, if_neg hat]
  refine ⟨p, b', hplace, hp, ⟨?_, ?_, ?_⟩, hview, hnew⟩
  · rw [hpool]
    refine ObjectPool.Live.modify (PriceLevel.Live_pushBack (hlive.set hmem _) hmem ?_) hmem _
    intro t ht
    have : t ∈ queueAt b.pool ps o.side.isBid o.price :=
      List.mem_of_getLast? (hslot.holds_getD.tail ▸ ht)
    exact List.mem_append_left _ (mem_queueAt.mp this).1
  · rw [hmap]
    exact h.map_insert hfresh hp hnew hold'
  · intro s t
    rw [hlookup, queueAt_append hold' hnew]
    by_cases hat : o.At s t
    · obtain ⟨rfl, rfl⟩ := hat
      rw [if_pos ⟨rfl, rfl⟩, if_pos ⟨rfl, rfl⟩]
      exact ⟨hholds, by simp, by simp [PriceLevel.pushBack]⟩
    · rw [if_neg hat, if_neg hat, List.append_nil]
      refine (h.slots s t).congr fun x hx => ?_
      obtain ⟨hxps, hxat⟩ := mem_queueAt.mp hx
      have hxq : x ∉ queueAt b.pool ps o.side.isBid o.price := fun hx' => by
        obtain ⟨rfl, rfl⟩ := (mem_queueAt.mp hx').2.unique hxat
        exact hat ⟨rfl, rfl⟩
      rw [hframe x (hpsne x hxps) hxq]
      exact ⟨rfl, rfl⟩

/-- A duplicate id or an exhausted pool refuses the order. -/
theorem Stored.placeOrder_refused (h : b.Stored ps) {o : Order} (shown : Int)
    (hno : ¬ ((∀ x ∈ (b.view ps).orders, x.id ≠ o.id) ∧ ps.length < maxOrders)) :
    b.placeOrder o shown = (none, b) := by
  unfold OrderBook.placeOrder
  cases hl : b.orderMap.lookup o.id with
  | some p => rfl
  | none =>
    have hfull : ¬ ps.length < maxOrders := fun hlt => hno ⟨h.getOrder_eq_none_iff.mp hl, hlt⟩
    rw [h.live.allocate_full (le_antisymm h.live.length_le (not_lt.mp hfull))]
    rfl

/-- The scan finds the best of the prices it passes, unless the sentinel is among them. -/
theorem scan_foldl {s : Bool} {entries : List (Σ _ : Int, PriceLevel)}
    (hne : ∀ e ∈ entries, e.2.empty = false) (acc : Int) :
    (entries.foldl (scanStep s) acc = acc ∨
        ∃ e ∈ entries, e.1 = entries.foldl (scanStep s) acc) ∧
      ((∀ e ∈ entries, e.1 ≠ invalidPrice) →
        (entries.foldl (scanStep s) acc = invalidPrice → acc = invalidPrice ∧ entries = []) ∧
        (∀ e ∈ entries, ¬ Better s e.1 (entries.foldl (scanStep s) acc)) ∧
        (acc ≠ invalidPrice → ¬ Better s acc (entries.foldl (scanStep s) acc))) := by
  induction entries generalizing acc with
  | nil => simpa using fun _ => better_irrefl s acc
  | cons e rest ih =>
    have hrest := ih fun x hx => hne x (by simp [hx])
    rw [List.foldl_cons]
    by_cases hc : acc = invalidPrice ∨ Better s e.1 acc
    · rw [show scanStep s acc e = e.1 by simp [scanStep, hne e, hc]]
      obtain ⟨hmem, hexact⟩ := hrest e.1
      refine ⟨?_, fun hsent => ?_⟩
      · rcases hmem with hmem | ⟨x, hx, hxr⟩
        · exact Or.inr ⟨e, by simp, hmem.symm⟩
        · exact Or.inr ⟨x, by simp [hx], hxr⟩
      · have he : e.1 ≠ invalidPrice := hsent e (by simp)
        obtain ⟨hinv, hbest, hacc⟩ := hexact fun x hx => hsent x (by simp [hx])
        refine ⟨fun h0 => absurd (hinv h0).1 he, ?_, fun hne' hb => ?_⟩
        · rintro x hx
          rcases List.mem_cons.mp hx with rfl | hx
          · exact hacc he
          · exact hbest x hx
        · exact hacc he ((hc.resolve_left hne').trans hb)
    · rw [show scanStep s acc e = acc by simp [scanStep, hc]]
      obtain ⟨hmem, hexact⟩ := hrest acc
      rw [not_or] at hc
      refine ⟨?_, fun hsent => ?_⟩
      · rcases hmem with hmem | ⟨x, hx, hxr⟩
        · exact Or.inl hmem
        · exact Or.inr ⟨x, by simp [hx], hxr⟩
      · obtain ⟨hinv, hbest, hacc⟩ := hexact fun x hx => hsent x (by simp [hx])
        refine ⟨fun h0 => absurd (hinv h0).1 hc.1, ?_, hacc⟩
        rintro x hx
        rcases List.mem_cons.mp hx with rfl | hx
        · exact not_better_trans hc.2 (hacc hc.1)
        · exact hbest x hx

/-- The levels of a represented book are the prices of its orders. -/
theorem Stored.lookup_isSome_iff (h : b.Stored ps) {s : Bool} {t : Int} :
    ((b.levels s).lookup t).isSome = true ↔ ∃ o ∈ (b.view ps).side s, o.price = t := by
  have hslot := h.slots s t
  have hiff : queueAt b.pool ps s t ≠ [] ↔ ∃ o ∈ (b.view ps).side s, o.price = t := by
    rw [ne_eq, ← level_view_eq_nil_iff, List.eq_nil_iff_forall_not_mem]
    simp only [not_forall, not_not, BookView.mem_level, BookView.mem_side, Order.At, and_assoc]
  rw [← hiff]
  cases hl : (b.levels s).lookup t with
  | none => simp_all [SlotRep]
  | some level => simpa [hl] using (hl ▸ hslot : SlotRep (some level) _ _).2.1

/-- Rescanning a side of a represented book. -/
theorem Stored.scanned (h : b.Stored ps) (ord : HashOrder) (s : Bool) :
    (b.view ps).Scanned s (scanBest s (ord.arrange (b.levels s).entries)) := by
  have hentry : ∀ e : Σ _ : Int, PriceLevel, e ∈ ord.arrange (b.levels s).entries ↔
      (b.levels s).lookup e.1 = some e.2 := by
    intro e
    rw [(ord.perm _).mem_iff, ← Option.mem_def, AList.mem_lookup_iff]
  have hne : ∀ e ∈ ord.arrange (b.levels s).entries, e.2.empty = false := by
    intro e he
    have hslot := h.slots s e.1
    rw [(hentry e).mp he] at hslot
    rw [← Bool.not_eq_true, hslot.1.empty_iff]
    exact hslot.2.1
  have hside : ∀ t, (∃ e ∈ ord.arrange (b.levels s).entries, e.1 = t) ↔
      ∃ o ∈ (b.view ps).side s, o.price = t := by
    intro t
    rw [← h.lookup_isSome_iff, Option.isSome_iff_exists]
    constructor
    · rintro ⟨e, he, rfl⟩
      exact ⟨e.2, (hentry e).mp he⟩
    · rintro ⟨level, hl⟩
      exact ⟨⟨t, level⟩, (hentry _).mpr hl, rfl⟩
  obtain ⟨hmem, hexact⟩ := scan_foldl (s := s) hne invalidPrice
  refine ⟨hmem.imp id (hside _).mp, fun hsent => ?_⟩
  have hsent' : ∀ e ∈ ord.arrange (b.levels s).entries, e.1 ≠ invalidPrice := by
    intro e he
    obtain ⟨o, ho, hprice⟩ := (hside e.1).mp ⟨e, he, rfl⟩
    exact hprice ▸ hsent o ho
  obtain ⟨hinv, hbest, -⟩ := hexact hsent'
  constructor
  · intro h0
    have hnil := (hinv h0).2
    rw [List.eq_nil_iff_forall_not_mem]
    intro o ho
    obtain ⟨e, he, -⟩ := (hside o.price).mpr ⟨o, ho, rfl⟩
    simp [hnil] at he
  · intro o ho
    obtain ⟨e, he, hprice⟩ := (hside o.price).mpr ⟨o, ho, rfl⟩
    exact hprice ▸ hbest e he

/-- The fields of the book after an order is unlinked from its level. -/
theorem removeOrderFromLevel_fields (ord : HashOrder) {level : PriceLevel}
    (hl : (b.levels (b.pool.get p).side.isBid).lookup (b.pool.get p).price = some level) :
    let o := b.pool.get p
    let removed := level.remove b.pool p
    let b' := b.removeOrderFromLevel ord p
    b'.pool = removed.2 ∧ b'.orderMap = b.orderMap ∧
      (∀ s t, (b'.levels s).lookup t =
        if o.At s t then if removed.1.empty then none else some removed.1
        else (b.levels s).lookup t) ∧
      ∀ s, b'.best s =
        if removed.1.empty = true ∧ o.side = Side.ofBid s ∧ o.price = b.best s then
          scanBest s (ord.arrange (b'.levels s).entries)
        else b.best s := by
  intro o removed b'
  have hb' : b' = b.removeOrderFromLevel ord p := rfl
  simp only [removeOrderFromLevel, hl] at hb'
  cases hempty : removed.1.empty with
  | false =>
    rw [if_neg (by simpa using hempty)] at hb'
    rw [hb']
    refine ⟨by simp; rfl, by simp, fun s t => ?_, fun s => ?_⟩
    · rw [if_neg Bool.false_ne_true]
      exact lookup_setLevels_insert { b with pool := _ } _ _ _ _ _
    · rw [if_neg (by simp), best_setLevels]
      rfl
  | true =>
    rw [if_pos (by simpa using hempty)] at hb'
    set erased := { b with pool := removed.2 }.setLevels o.side.isBid
      ((b.levels o.side.isBid).erase o.price) with herased
    have hlookup : ∀ s t, (erased.levels s).lookup t =
        if o.At s t then none else (b.levels s).lookup t := fun s t =>
      lookup_setLevels_erase { b with pool := removed.2 } _ _ _ _
    have hbest : ∀ s, erased.best s = b.best s := fun s => best_setLevels ..
    -- the two comparisons of the source name one side each
    have hupdate : ∀ s, b' = erased.updateBest ord s → o.side = Side.ofBid s →
        o.price = b.best s → b'.pool = removed.2 ∧ b'.orderMap = b.orderMap ∧
          (∀ s t, (b'.levels s).lookup t = if o.At s t then none else (b.levels s).lookup t) ∧
          ∀ s', b'.best s' = if o.side = Side.ofBid s' ∧ o.price = b.best s' then
            scanBest s' (ord.arrange (b'.levels s').entries) else b.best s' := by
      intro s hs hside hprice
      rw [hs]
      refine ⟨by simp [updateBest, herased], by simp [updateBest, herased], ?_, fun s' => ?_⟩
      · simpa [updateBest] using hlookup
      · rw [updateBest, best_setBest, levels_setBest]
        by_cases hss : s' = s
        · subst hss
          rw [if_pos rfl, if_pos ⟨hside, hprice⟩]
        · rw [if_neg hss, hbest, if_neg]
          rintro ⟨hside', -⟩
          exact hss (by rw [← Side.isBid_ofBid s', ← hside', hside, Side.isBid_ofBid])
    simp only [true_and, if_true]
    by_cases hbid : o.side = .bid ∧ o.price = b.bestBid
    · exact hupdate true (hb'.trans (if_pos hbid)) hbid.1 hbid.2
    · rw [if_neg hbid] at hb'
      by_cases hask : o.side = .ask ∧ o.price = b.bestAsk
      · exact hupdate false (hb'.trans (if_pos hask)) hask.1 hask.2
      · rw [if_neg hask] at hb'
        rw [hb']
        refine ⟨by simp [herased], by simp [herased], hlookup, fun s => ?_⟩
        rw [hbest, if_neg]
        cases s
        · exact hask
        · exact hbid

/-- A listed order sits somewhere in the queue of its level. -/
theorem Stored.split_queue (h : b.Stored ps) (hp : p ∈ ps) :
    ∃ level xs ys, (b.levels (b.pool.get p).side.isBid).lookup (b.pool.get p).price = some level ∧
      queueAt b.pool ps (b.pool.get p).side.isBid (b.pool.get p).price = xs ++ p :: ys ∧
      p ∉ xs ∧ level.Holds b.pool (xs ++ p :: ys) := by
  have hmem : p ∈ queueAt b.pool ps (b.pool.get p).side.isBid (b.pool.get p).price :=
    mem_queueAt.mpr ⟨hp, rfl, rfl⟩
  have hslot := h.slots (b.pool.get p).side.isBid (b.pool.get p).price
  obtain ⟨xs, ys, hq, hxs⟩ := List.eq_append_cons_of_mem hmem
  cases hl : (b.levels (b.pool.get p).side.isBid).lookup (b.pool.get p).price with
  | none =>
    rw [hl] at hslot
    simp [show queueAt _ _ _ _ = [] from hslot] at hmem
  | some level =>
    rw [hl, hq] at hslot
    exact ⟨level, xs, ys, rfl, hq, hxs, hslot.1⟩

/-- The queues after a slot is erased. -/
theorem queueAt_erase (pool' : ObjectPool Order maxOrders)
    (hold : ∀ x ∈ ps, x ≠ p → (pool'.get x).unlink = (pool.get x).unlink)
    (hnd : ps.Nodup) (s : Bool) (t : Int) :
    queueAt pool' (ps.erase p) s t = (queueAt pool ps s t).erase p := by
  rw [queueAt_congr pool fun x hx => hold x (List.mem_of_mem_erase hx)
    fun e => hnd.not_mem_erase (e ▸ hx)]
  exact List.erase_filter.symm

/-- The id map after an order's id is erased. -/
theorem Stored.map_erase (h : b.Stored ps) (hp : p ∈ ps)
    (hold : ∀ x ∈ ps, x ≠ p → (pool'.get x).unlink = (b.pool.get x).unlink) (id : OrderId)
    (x : Ptr) : (b.orderMap.erase (b.pool.get p).id).lookup id = some x ↔
      x ∈ ps.erase p ∧ (pool'.get x).id = id := by
  have hids : ∀ x ∈ ps, x ≠ p → (pool'.get x).id = (b.pool.get x).id := fun x hx hne => by
    rw [← Order.id_unlink, hold x hx hne, Order.id_unlink]
  by_cases hid : id = (b.pool.get p).id
  · subst hid
    simp only [AList.lookup_erase, reduceCtorEq, false_iff, not_and, h.live.nodup.mem_erase_iff]
    rintro ⟨hne, hx⟩ hxid
    exact hne (h.id_inj hx hp ((hids x hx hne).symm.trans hxid))
  · rw [AList.lookup_erase_ne hid, h.map, h.live.nodup.mem_erase_iff]
    constructor
    · rintro ⟨hx, hxid⟩
      have hne : x ≠ p := fun e => hid (by rw [← e]; exact hxid.symm)
      exact ⟨⟨hne, hx⟩, (hids x hx hne).trans hxid⟩
    · rintro ⟨⟨hne, hx⟩, hxid⟩
      exact ⟨hx, (hids x hx hne).symm.trans hxid⟩

/-- Erasing a listed slot filters its id out of the view. -/
theorem Stored.orders_erase (h : b.Stored ps) (hp : p ∈ ps)
    (hold : ∀ x ∈ ps, x ≠ p → (b'.pool.get x).unlink = (b.pool.get x).unlink) :
    (b'.view (ps.erase p)).orders =
      (b.view ps).orders.filter fun x => x.id != (b.pool.get p).id := by
  simp only [view, h.live.nodup.erase_eq_filter, List.filter_map]
  rw [List.map_congr_left (g := fun x => (b.pool.get x).unlink)]
  · congr 1
    apply List.filter_congr
    intro x hx
    by_cases hxp : x = p
    · simp [hxp]
    · have hne : (b.pool.get x).id ≠ (b.pool.get p).id := fun e => hxp (h.id_inj hx hp e)
      rw [Function.comp_apply, bne_iff_ne.mpr hxp, Order.id_unlink, bne_iff_ne.mpr hne]
  · intro x hx
    simp only [List.mem_filter, bne_iff_ne] at hx
    exact hold x hx.1 hx.2

/-- What discarding an order leaves in the other slots. -/
theorem Stored.get_discard (h : b.Stored ps) (ord : HashOrder) (hp : p ∈ ps) {x : Ptr} (hx : x ≠ p) :
    ((b.discard ord (b.pool.get p).id p).pool.get x).unlink = (b.pool.get x).unlink := by
  obtain ⟨level, xs, ys, hl, hq, hxs, hholds⟩ := h.split_queue hp
  obtain ⟨hpool, -⟩ := removeOrderFromLevel_fields ord hl
  simp only [OrderBook.discard, ObjectPool.get_deallocate_of_ne _ hx, hpool, hholds.unlink_remove]

/-- What discarding the order in slot `p` leaves in the book: its level without it, or no level if
it was the last one there, and a new best price if that level was the best. -/
structure Discards (b : OrderBook) (ps : List Ptr) (p : Ptr) (ord : HashOrder) (b' : OrderBook)
    (level : PriceLevel) (xs ys : List Ptr) : Prop where
  lookup : (b.levels (b.pool.get p).side.isBid).lookup (b.pool.get p).price = some level
  holds : level.Holds b.pool (xs ++ p :: ys)
  before : queueAt b.pool ps (b.pool.get p).side.isBid (b.pool.get p).price = xs ++ p :: ys
  after : queueAt b'.pool (ps.erase p) (b.pool.get p).side.isBid (b.pool.get p).price = xs ++ ys
  pool : b'.pool = (level.remove b.pool p).2.deallocate p
  orderMap : b'.orderMap = b.orderMap.erase (b.pool.get p).id
  levels : ∀ s t, (b'.levels s).lookup t =
    if (b.pool.get p).At s t then
      if queueAt b'.pool (ps.erase p) s t = [] then none else some (level.remove b.pool p).1
    else (b.levels s).lookup t
  best : ∀ s, b'.best s =
    if (b.pool.get p).side = Side.ofBid s ∧ (b.pool.get p).price = b.best s ∧
        queueAt b'.pool (ps.erase p) s (b.pool.get p).price = [] then
      scanBest s (ord.arrange (b'.levels s).entries)
    else b.best s

private theorem Stored.discards (h : b.Stored ps) (ord : HashOrder) (hp : p ∈ ps) :
    ∃ level xs ys, Discards b ps p ord (b.discard ord (b.pool.get p).id p) level xs ys := by
  obtain ⟨level, xs, ys, hl, hq, hxs, hholds⟩ := h.split_queue hp
  obtain ⟨hpool, hmap, hlookup, hbest⟩ := removeOrderFromLevel_fields ord hl
  have hqueue := queueAt_erase (b.discard ord (b.pool.get p).id p).pool
    (fun x _ hx => h.get_discard ord hp hx) h.live.nodup
  have hown : queueAt (b.discard ord (b.pool.get p).id p).pool (ps.erase p)
      (b.pool.get p).side.isBid (b.pool.get p).price = xs ++ ys := by
    rw [hqueue, hq, List.erase_append_right _ hxs, List.erase_cons_head]
  have hempty : (level.remove b.pool p).1.empty = true ↔
      queueAt (b.discard ord (b.pool.get p).id p).pool (ps.erase p)
        (b.pool.get p).side.isBid (b.pool.get p).price = [] := by
    rw [hholds.remove.empty_iff, hown]
  refine ⟨level, xs, ys, hl, hholds, hq, hown, ?_, ?_, fun s t => ?_, fun s => ?_⟩
  · rw [OrderBook.discard, ← hpool]
  · rw [OrderBook.discard, ← hmap]
  · refine (hlookup s t).trans ?_
    by_cases hat : (b.pool.get p).At s t
    · obtain ⟨rfl, rfl⟩ := hat
      simp only [← hempty]
    · rw [if_neg hat, if_neg hat]
  · refine (hbest s).trans (if_congr ?_ rfl rfl)
    rw [and_comm, and_assoc]
    refine and_congr_right fun hside => and_congr_right fun _ => ?_
    rw [hempty, hside, Side.isBid_ofBid]

section Discards

variable {ord : HashOrder} {level : PriceLevel} {xs ys : List Ptr}

private theorem Discards.slots (h : b.Stored ps)
    (hold : ∀ x ∈ ps, x ≠ p → (b'.pool.get x).unlink = (b.pool.get x).unlink)
    (hd : Discards b ps p ord b' level xs ys) (s : Bool) (t : Int) :
    SlotRep ((b'.levels s).lookup t) b'.pool (queueAt b'.pool (ps.erase p) s t) := by
  rw [hd.levels]
  by_cases hat : (b.pool.get p).At s t
  · obtain ⟨rfl, rfl⟩ := hat
    rw [if_pos ⟨rfl, rfl⟩]
    by_cases hnil : queueAt b'.pool (ps.erase p) (b.pool.get p).side.isBid (b.pool.get p).price = []
    · rw [if_pos hnil]
      exact hnil
    · rw [if_neg hnil]
      refine ⟨?_, hnil, by simp [PriceLevel.remove]⟩
      rw [hd.after]
      refine hd.holds.remove.congr ?_ ?_ <;>
      · intro x hx
        have hne : x ≠ p := by
          rintro rfl
          rw [← hd.after] at hx
          exact h.live.nodup.not_mem_erase (mem_queueAt.mp hx).1
        rw [hd.pool, ObjectPool.get_deallocate_of_ne _ hne]
  · -- another level: none of its slots is touched
    rw [if_neg hat, queueAt_erase b'.pool hold h.live.nodup,
      List.erase_of_not_mem fun hmem => hat (mem_queueAt.mp hmem).2]
    refine (h.slots s t).congr fun x hx => ?_
    obtain ⟨hxps, hxat⟩ := mem_queueAt.mp hx
    have hne : x ≠ p := fun e => hat (e ▸ hxat)
    have hxq : x ∉ xs ++ p :: ys := fun hx' => by
      rw [← hd.before] at hx'
      obtain ⟨rfl, rfl⟩ := (mem_queueAt.mp hx').2.unique hxat
      exact hat ⟨rfl, rfl⟩
    rw [hd.pool, ObjectPool.get_deallocate_of_ne _ hne, hd.holds.get_remove_of_notMem hxq]
    exact ⟨rfl, rfl⟩

private theorem Discards.stored (h : b.Stored ps) (hp : p ∈ ps)
    (hold : ∀ x ∈ ps, x ≠ p → (b'.pool.get x).unlink = (b.pool.get x).unlink)
    (hd : Discards b ps p ord b' level xs ys) : b'.Stored (ps.erase p) := by
  refine ⟨?_, ?_, hd.slots h hold⟩
  · rw [hd.pool]
    refine (hd.holds.live_remove h.live fun x hx => ?_).deallocate hp
    rw [← hd.before] at hx
    exact (mem_queueAt.mp hx).1
  · rw [hd.orderMap]
    exact h.map_erase hp hold

private theorem Discards.dropped (h : b.Stored ps) (hp : p ∈ ps)
    (hold : ∀ x ∈ ps, x ≠ p → (b'.pool.get x).unlink = (b.pool.get x).unlink)
    (hd : Discards b ps p ord b' level xs ys) :
    (b.view ps).Dropped (b.pool.get p).unlink (b'.view (ps.erase p)) := by
  refine ⟨h.orders_erase hp hold, fun s t => ?_, fun s => ?_⟩
  · change ((((b'.levels s).lookup t).map PriceLevel.totalQuantity).getD 0) = _
    rw [hd.levels]
    by_cases hat : (b.pool.get p).At s t
    · rw [if_pos hat, if_pos (Order.at_unlink _ _ _ |>.mpr hat)]
      simp only [level_view_eq_nil_iff]
      split
      · rfl
      · obtain ⟨rfl, rfl⟩ := hat
        simp [view, hd.lookup, PriceLevel.remove]
    · rw [if_neg hat, if_neg fun e => hat ((Order.at_unlink _ _ _).mp e)]
      rfl
  · simp only [Order.side_unlink, Order.price_unlink, level_view_eq_nil_iff, best_view]
    rw [hd.best]
    split_ifs
    · exact (hd.stored h hp hold).scanned ord s
    · rfl

end Discards

/-- Discarding a listed order keeps the invariant and drops it from the view. -/
theorem Stored.discard (h : b.Stored ps) (ord : HashOrder) (hp : p ∈ ps) :
    (b.discard ord (b.pool.get p).id p).Stored (ps.erase p) ∧
      (b.view ps).Dropped (b.pool.get p).unlink
        ((b.discard ord (b.pool.get p).id p).view (ps.erase p)) := by
  obtain ⟨level, xs, ys, hd⟩ := h.discards ord hp
  have hold : ∀ x ∈ ps, x ≠ p → ((b.discard ord (b.pool.get p).id p).pool.get x).unlink =
      (b.pool.get x).unlink := fun x _ hx => h.get_discard ord hp hx
  exact ⟨hd.stored h hp hold, hd.dropped h hp hold⟩

/-- The matching engine's removal and release of an order is a discard. -/
theorem Stored.release_eq_discard (h : b.Stored ps) (ord : HashOrder) (hp : p ∈ ps) :
    (b.removeOrderFromLevel ord p).releaseOrder p = b.discard ord (b.pool.get p).id p := by
  obtain ⟨level, xs, ys, hl, hq, hxs, hholds⟩ := h.split_queue hp
  obtain ⟨hpool, -⟩ := removeOrderFromLevel_fields ord hl
  have hid : ((b.removeOrderFromLevel ord p).pool.get p).id = (b.pool.get p).id := by
    rw [hpool, ← Order.id_unlink, hholds.unlink_remove, Order.id_unlink]
  rw [releaseOrder, hid]
  rfl

/-- A level keeps its queue, and its depth counter stays a 32-bit value. -/
structure Retouches (f : PriceLevel → PriceLevel) : Prop where
  head : ∀ l, (f l).head = l.head
  tail : ∀ l, (f l).tail = l.tail
  count : ∀ l, (f l).orderCount = l.orderCount
  wrapped : ∀ l : PriceLevel, toInt32 l.totalQuantity = l.totalQuantity →
    toInt32 (f l).totalQuantity = (f l).totalQuantity

/-- Leaving a level alone retouches it. -/
theorem retouches_id : Retouches fun l => l :=
  ⟨fun _ => rfl, fun _ => rfl, fun _ => rfl, fun _ => id⟩

/-- Setting the total of a level retouches it. -/
theorem retouches_total (f : Int → Int) :
    Retouches fun l => { l with totalQuantity := toInt32 (f l.totalQuantity) } :=
  ⟨fun _ => rfl, fun _ => rfl, fun _ => rfl, fun _ _ => toInt32_toInt32 _⟩

/-- Retouching twice is retouching. -/
theorem Retouches.comp {f g : PriceLevel → PriceLevel} (hf : Retouches f) (hg : Retouches g) :
    Retouches fun l => f (g l) where
  head l := (hf.head _).trans (hg.head l)
  tail l := (hf.tail _).trans (hg.tail l)
  count l := (hf.count _).trans (hg.count l)
  wrapped l h := hf.wrapped _ (hg.wrapped l h)

/-- Changing quantities of listed orders and depth counters keeps the invariant. -/
theorem Stored.retouch (h : b.Stored ps) (hlive : b'.pool.Live ps) (hmap : b'.orderMap = b.orderMap)
    (hget : ∀ x ∈ ps, (b.pool.get x).SameSpot (b'.pool.get x))
    {f : Bool → Int → PriceLevel → PriceLevel} (hf : ∀ s t, Retouches (f s t))
    (hlevels : ∀ s t, (b'.levels s).lookup t = ((b.levels s).lookup t).map (f s t)) :
    b'.Stored ps where
  live := hlive
  map id x := by
    rw [hmap, h.map]
    exact and_congr_right fun hx => by rw [(hget x hx).id]
  slots s t := by
    have hq : queueAt b'.pool ps s t = queueAt b.pool ps s t := by
      apply List.filter_congr
      intro x hx
      rw [decide_eq_decide, Order.At, Order.At, (hget x hx).side, (hget x hx).price]
    have hslot := h.slots s t
    rw [hq, hlevels]
    cases hl : (b.levels s).lookup t with
    | none => rwa [hl] at hslot
    | some level =>
      rw [hl] at hslot
      obtain ⟨hholds, hne, hwrap⟩ := hslot
      refine ⟨⟨?_, ?_, ?_, hholds.nodup, ?_⟩, hne, (hf s t).wrapped level hwrap⟩
      · rw [(hf s t).head, hholds.head]
      · rw [(hf s t).tail, hholds.tail]
      · exact hholds.linked.congr (fun x hx => (hget x (mem_queueAt.mp hx).1).prev)
          fun x hx => (hget x (mem_queueAt.mp hx).1).next
      · rw [(hf s t).count, hholds.count]

/-- Adjusting a level changes at most that level. -/
theorem lookup_adjustLevel (b : OrderBook) (s s' : Bool) (t t' : Int)
    (f : PriceLevel → PriceLevel) :
    ((b.adjustLevel s t f).levels s').lookup t' =
      ((b.levels s').lookup t').map fun l => if s = s' ∧ t = t' then f l else l := by
  unfold adjustLevel
  cases hl : (b.levels s).lookup t with
  | none =>
    by_cases hst : s = s' ∧ t = t'
    · obtain ⟨rfl, rfl⟩ := hst
      simp [hl]
    · simp [hst]
  | some level =>
    simp only [lookup_setLevels_insert]
    by_cases hst : s = s' ∧ t = t'
    · obtain ⟨rfl, rfl⟩ := hst
      simp [hl]
    · simp [hst]

@[simp] theorem pool_adjustLevel (b : OrderBook) (s : Bool) (t : Int)
    (f : PriceLevel → PriceLevel) : (b.adjustLevel s t f).pool = b.pool := by
  unfold adjustLevel
  split <;> simp

@[simp] theorem orderMap_adjustLevel (b : OrderBook) (s : Bool) (t : Int)
    (f : PriceLevel → PriceLevel) : (b.adjustLevel s t f).orderMap = b.orderMap := by
  unfold adjustLevel
  split <;> simp

@[simp] theorem best_adjustLevel (b : OrderBook) (s s' : Bool) (t : Int)
    (f : PriceLevel → PriceLevel) : (b.adjustLevel s t f).best s' = b.best s' := by
  unfold adjustLevel
  split <;> simp

/-- Amending the order in one listed slot is an amendment by its id. -/
theorem Stored.map_amend (h : b.Stored ps) (hp : p ∈ ps) {g : Order → Order} (get : Ptr → Order)
    (hget : ∀ x ∈ ps, (get x).id = (b.pool.get x).id) :
    (ps.map fun x => if x = p then g (get x) else get x) =
      BookView.amend (ps.map get) (b.pool.get p).id g := by
  rw [BookView.amend, List.map_map]
  apply List.map_congr_left
  intro x hx
  simp only [Function.comp_apply]
  by_cases hxp : x = p
  · subst hxp
    rw [if_pos rfl, if_pos (hget x hx)]
  · rw [if_neg hxp, if_neg fun e => hxp (h.id_inj hx hp ((hget x hx).symm.trans e))]

/-- Reducing a listed order in place. -/
theorem Stored.shrink (h : b.Stored ps) (hp : p ∈ ps) (n : Int) {level : PriceLevel}
    (hl : (b.levels (b.pool.get p).side.isBid).lookup (b.pool.get p).price = some level) :
    let modified := level.modifyQtyDown b.pool p n
    let b' := { b with pool := modified.2 }.setLevels (b.pool.get p).side.isBid
      ((b.levels (b.pool.get p).side.isBid).insert (b.pool.get p).price modified.1)
    b'.Stored ps ∧ b'.view ps = (b.view ps).shrink (b.pool.get p).unlink n := by
  intro modified b'
  have hpool : b'.pool = b.pool.modify p fun x => { x with quantity := x.filledQuantity + n } :=
    pool_setLevels ..
  have hget : ∀ x, b'.pool.get x = if x = p then (b.pool.get x).shrink n else b.pool.get x := by
    intro x
    rw [hpool, ObjectPool.get_modify]
    by_cases hx : x = p
    · rw [if_pos hx, if_pos hx, hx]
      rfl
    · rw [if_neg hx, if_neg hx]
  have hlookup : ∀ s t, (b'.levels s).lookup t = ((b.levels s).lookup t).map fun l =>
      if (b.pool.get p).At s t then
        { l with totalQuantity := toInt32 (l.totalQuantity - ((b.pool.get p).remaining - n)) }
      else l := by
    intro s t
    refine (lookup_setLevels_insert { b with pool := _ } _ _ _ _ _).trans ?_
    by_cases hat : (b.pool.get p).At s t
    · obtain ⟨rfl, rfl⟩ := hat
      rw [if_pos ⟨rfl, rfl⟩, hl, Option.map_some, if_pos ⟨rfl, rfl⟩]
      rfl
    · rw [if_neg (show ¬ (_ ∧ _) from hat)]
      simp only [hat, if_false, Option.map_id']
      rfl
  constructor
  · refine h.retouch ?_ (orderMap_setLevels ..) (fun x _ => ?_) (fun s t => ?_) hlookup
    · rw [hpool]
      exact h.live.modify hp _
    · rw [hget]
      split <;> exact ⟨rfl, rfl, rfl, fun hice => ⟨hice, rfl⟩, rfl, rfl⟩
    · split
      · exact retouches_total fun x => x - ((b.pool.get p).remaining - n)
      · exact retouches_id
  · simp only [view, BookView.shrink, BookView.mk.injEq, Order.id_unlink, Order.at_unlink,
      Order.remaining_unlink]
    refine ⟨?_, ?_, funext fun s => best_setLevels ..⟩
    · rw [← h.map_amend hp (fun x => (b.pool.get x).unlink) fun x _ => rfl]
      apply List.map_congr_left
      intro x _
      rw [hget]
      split <;> rfl
    · funext s t
      rw [hlookup]
      by_cases hat : (b.pool.get p).At s t
      · obtain ⟨rfl, rfl⟩ := hat
        simp [hl, Order.At]
      · simp [hat]

/-- Cancelling an id drops the order it names, or does nothing. -/
theorem Stored.cancelOrder_cases (h : b.Stored ps) (ord : HashOrder) (id : OrderId) :
    (∃ o ∈ (b.view ps).orders, o.id = id ∧ ∃ b' ps', b.cancelOrder ord id = (true, b') ∧
        b'.Stored ps' ∧ (b.view ps).Dropped o (b'.view ps')) ∨
      (∀ o ∈ (b.view ps).orders, o.id ≠ id) ∧ b.cancelOrder ord id = (false, b) := by
  cases hl : b.orderMap.lookup id with
  | none =>
    refine Or.inr ⟨h.getOrder_eq_none_iff.mp hl, ?_⟩
    simp [OrderBook.cancelOrder, getOrder, hl]
  | some p =>
    obtain ⟨hp, rfl⟩ := (h.map id p).mp hl
    obtain ⟨hrep, hdrop⟩ := h.discard ord hp
    refine Or.inl ⟨_, mem_orders.mpr ⟨p, hp, rfl⟩, rfl, _, _, ?_, hrep, hdrop⟩
    simp [OrderBook.cancelOrder, getOrder, hl]

/-- Reducing an order to what remains of it changes nothing. -/
theorem Stored.shrink_remaining (h : b.Stored ps) {o : Order} (ho : o ∈ (b.view ps).orders) :
    (b.view ps).shrink o o.remaining = b.view ps := by
  have heq : ∀ x ∈ (b.view ps).orders, x.id = o.id → x = o := by
    intro x hx hid
    obtain ⟨p, hp, rfl⟩ := mem_orders.mp hx
    obtain ⟨q, hq, rfl⟩ := mem_orders.mp ho
    rw [h.id_inj hp hq hid]
  have horders : BookView.amend (b.view ps).orders o.id (·.shrink o.remaining) =
      (b.view ps).orders := by
    unfold BookView.amend
    conv_rhs => rw [← List.map_id (b.view ps).orders]
    apply List.map_congr_left
    intro x hx
    split
    · rename_i hid
      rw [heq x hx hid]
      simp only [Order.shrink, Order.remaining, add_sub_cancel, id]
    · rfl
  simp only [BookView.shrink, horders, sub_self, sub_zero, h.wrapped, ite_self]

/-- What a discarded order leaves room for: its own re-entry at another price. -/
theorem Stored.reenter (h : b.Stored ps) (ord : HashOrder) (hp : p ∈ ps) (price qty : Int) :
    let o := (b.pool.get p).unlink
    let removed := b.discard ord (b.pool.get p).id p
    ∃ b' ps' w, (if (b.pool.get p).type = .iceberg then
        removed.addIcebergOrder (b.pool.get p).id (b.pool.get p).side price qty
          (b.pool.get p).displayQty (b.pool.get p).timestamp
      else removed.addOrder (b.pool.get p).id (b.pool.get p).side price qty
          (b.pool.get p).timestamp).2 = b' ∧ b'.Stored ps' ∧ (b.view ps).Dropped o w ∧
      b'.view ps' = w.place (BookView.reentry o price qty)
        (BookView.entryDepth (BookView.reentry o price qty)) := by
  intro o removed
  obtain ⟨hrep, hdrop⟩ := h.discard ord hp
  have hroom : (ps.erase p).length < maxOrders := by
    have hle := h.live.length_le
    have hpos := List.length_pos_of_mem hp
    rw [List.length_erase_of_mem hp]
    omega
  have hfresh : removed.orderMap.lookup (BookView.reentry o price qty).id = none := by
    have hid : (BookView.reentry o price qty).id = o.id := by
      unfold BookView.reentry
      split <;> rfl
    rw [hid, hrep.getOrder_eq_none_iff, hdrop.orders]
    simp [o]
  obtain ⟨x, b', hplace, -, hrep', hview, -⟩ := hrep.placeOrder
    (BookView.entryDepth (BookView.reentry o price qty)) (o := BookView.reentry o price qty)
    (by unfold BookView.reentry; split <;> rfl) (by unfold BookView.reentry; split <;> rfl)
    hfresh hroom
  refine ⟨b', _, _, ?_, hrep', hdrop, hview⟩
  by_cases hice : (b.pool.get p).type = .iceberg
  · have : BookView.reentry o price qty = icebergOrder (b.pool.get p).id (b.pool.get p).side price
        qty (b.pool.get p).displayQty (b.pool.get p).timestamp := if_pos hice
    rw [this] at hplace
    rw [if_pos hice, addIcebergOrder]
    exact congrArg Prod.snd hplace
  · have : BookView.reentry o price qty = limitOrder (b.pool.get p).id (b.pool.get p).side price
        qty (b.pool.get p).timestamp := if_neg hice
    rw [this] at hplace
    rw [if_neg hice, addOrder]
    exact congrArg Prod.snd hplace

/-- A modify is refused unless the id names an order of which at least the new,
positive quantity remains; otherwise it is applied. -/
theorem Stored.modifyOrder_cases (h : b.Stored ps) (ord : HashOrder) (id : OrderId) (price qty : Int) :
    (∃ o ∈ (b.view ps).orders, o.id = id ∧ 0 < qty ∧ qty ≤ o.remaining ∧
        ∃ b' ps', b.modifyOrder ord id price qty = (true, b') ∧ b'.Stored ps' ∧
          (b.view ps).Modified o price qty (b'.view ps')) ∨
      (∀ o ∈ (b.view ps).orders, o.id = id → ¬ (0 < qty ∧ qty ≤ o.remaining)) ∧
        b.modifyOrder ord id price qty = (false, b) := by
  cases hl : b.orderMap.lookup id with
  | none =>
    refine Or.inr ⟨fun o ho hid => absurd hid (h.getOrder_eq_none_iff.mp hl o ho), ?_⟩
    simp [OrderBook.modifyOrder, getOrder, hl]
  | some p =>
    obtain ⟨hp, rfl⟩ := (h.map id p).mp hl
    have hmem := mem_orders (b := b).mpr ⟨p, hp, rfl⟩
    by_cases hok : 0 < qty ∧ qty ≤ (b.pool.get p).remaining
    · refine Or.inl ⟨_, hmem, rfl, hok.1, hok.2, ?_⟩
      simp only [OrderBook.modifyOrder, getOrder, hl, not_le.mpr hok.1, if_false,
        not_lt.mpr hok.2]
      by_cases hprice : price = (b.pool.get p).price
      · simp only [hprice, if_true]
        by_cases hlt : qty < (b.pool.get p).remaining
        · obtain ⟨level, -, -, hlevel, -⟩ := h.split_queue hp
          obtain ⟨hrep, hview⟩ := h.shrink hp qty hlevel
          refine ⟨_, ps, by simp only [hlt, if_true, hlevel], hrep, ?_⟩
          rw [hview]
          exact .inPlace rfl
        · refine ⟨b, ps, by simp only [hlt, if_false], h, ?_⟩
          have hfull : qty = (b.pool.get p).unlink.remaining := le_antisymm hok.2 (not_lt.mp hlt)
          have hid := h.shrink_remaining hmem
          rw [← hfull] at hid
          conv_rhs => rw [← hid]
          exact .inPlace rfl
      · simp only [hprice, if_false]
        obtain ⟨b', ps', w, hb', hrep, hdrop, hview⟩ := h.reenter ord hp price qty
        refine ⟨b', ps', ?_, hrep, ?_⟩
        · rw [← hb']
          split <;> rfl
        · rw [hview]
          exact .moved hprice hdrop
    · refine Or.inr ⟨?_, ?_⟩
      · intro o ho hid
        obtain ⟨q, hq, rfl⟩ := mem_orders.mp ho
        rwa [h.id_inj hq hp hid]
      · simp only [OrderBook.modifyOrder, getOrder, hl]
        by_cases hpos : qty ≤ 0
        · rw [if_pos hpos]
        · rw [if_neg hpos, if_pos]
          by_contra hle
          exact hok ⟨not_le.mp hpos, not_lt.mp hle⟩

/-- The front order of the cached best price. -/
theorem Stored.bestOrder_eq (h : b.Stored ps) {s : Bool} (hv : b.best s ≠ invalidPrice) :
    b.bestOrder s = (queueAt b.pool ps s (b.best s)).head? := by
  have hslot := h.slots s (b.best s)
  rw [bestOrder, if_neg hv]
  cases hl : (b.levels s).lookup (b.best s) with
  | none =>
    rw [hl] at hslot
    rw [show queueAt _ _ _ _ = [] from hslot]
    rfl
  | some level =>
    rw [hl] at hslot
    exact hslot.1.head

/-- Entering an order with a new id into a pool with room. -/
theorem Rep.placeOrder (h : b.Rep ps) {o : Order} (shown : Int) (ho : o.unlink = o)
    (hfilled : o.filledQuantity = 0) (hdisplay : o.type = .iceberg → 0 < o.displayQty)
    (hfresh : b.orderMap.lookup o.id = none) (hroom : ps.length < maxOrders) :
    ∃ p b', b.placeOrder o shown = (some p, b') ∧ p ∉ ps ∧ b'.Rep (ps ++ [p]) ∧
      b'.view (ps ++ [p]) = (b.view ps).place o shown ∧ (b'.pool.get p).unlink = o := by
  obtain ⟨p, b', hplace, hp, hstored, hview, hnew⟩ :=
    h.toStored.placeOrder shown ho hfilled hfresh hroom
  refine ⟨p, b', hplace, hp, ⟨hstored, fun x hx hice => ?_⟩, hview, hnew⟩
  rw [hview, BookView.place, List.mem_append, List.mem_singleton] at hx
  rcases hx with hx | rfl
  · exact h.display x hx hice
  · exact hdisplay hice

/-- Icebergs that stay display what they did. -/
theorem Rep.of_dropped (h : b.Rep ps) (hstored : b'.Stored ps') {o : Order}
    (hdrop : (b.view ps).Dropped o (b'.view ps')) : b'.Rep ps' :=
  ⟨hstored, fun x hx => h.display x (hdrop.mem_iff.mp hx).1⟩

/-- Discarding a listed order keeps the invariant and drops it from the view. -/
theorem Rep.discard (h : b.Rep ps) (ord : HashOrder) (hp : p ∈ ps) :
    (b.discard ord (b.pool.get p).id p).Rep (ps.erase p) ∧
      (b.view ps).Dropped (b.pool.get p).unlink
        ((b.discard ord (b.pool.get p).id p).view (ps.erase p)) := by
  obtain ⟨hstored, hdrop⟩ := h.toStored.discard ord hp
  exact ⟨h.of_dropped hstored hdrop, hdrop⟩

/-- Changing quantities of listed orders and depth counters keeps the invariant. -/
theorem Rep.retouch (h : b.Rep ps) (hlive : b'.pool.Live ps) (hmap : b'.orderMap = b.orderMap)
    (hget : ∀ x ∈ ps, (b.pool.get x).SameSpot (b'.pool.get x))
    {f : Bool → Int → PriceLevel → PriceLevel} (hf : ∀ s t, Retouches (f s t))
    (hlevels : ∀ s t, (b'.levels s).lookup t = ((b.levels s).lookup t).map (f s t)) :
    b'.Rep ps := by
  refine ⟨h.toStored.retouch hlive hmap hget hf hlevels, fun o ho hice => ?_⟩
  obtain ⟨x, hx, rfl⟩ := mem_orders.mp ho
  obtain ⟨hice', hdisplay⟩ := (hget x hx).iceberg hice
  have hx' := h.display _ (mem_orders.mpr ⟨x, hx, rfl⟩) hice'
  rw [Order.displayQty_unlink] at hx' ⊢
  rwa [hdisplay]

/-- Cancelling an id drops the order it names, or does nothing. -/
theorem Rep.cancelOrder_cases (h : b.Rep ps) (ord : HashOrder) (id : OrderId) :
    (∃ o ∈ (b.view ps).orders, o.id = id ∧ ∃ b' ps', b.cancelOrder ord id = (true, b') ∧
        b'.Rep ps' ∧ (b.view ps).Dropped o (b'.view ps')) ∨
      (∀ o ∈ (b.view ps).orders, o.id ≠ id) ∧ b.cancelOrder ord id = (false, b) := by
  refine (h.toStored.cancelOrder_cases ord id).imp_left ?_
  rintro ⟨o, ho, hid, b', ps', hcancel, hstored, hdrop⟩
  exact ⟨o, ho, hid, b', ps', hcancel, h.of_dropped hstored hdrop, hdrop⟩

/-- A modify is refused unless the id names an order of which at least the new,
positive quantity remains; otherwise it is applied. -/
theorem Rep.modifyOrder_cases (h : b.Rep ps) (ord : HashOrder) (id : OrderId) (price qty : Int) :
    (∃ o ∈ (b.view ps).orders, o.id = id ∧ 0 < qty ∧ qty ≤ o.remaining ∧
        ∃ b' ps', b.modifyOrder ord id price qty = (true, b') ∧ b'.Rep ps' ∧
          (b.view ps).Modified o price qty (b'.view ps')) ∨
      (∀ o ∈ (b.view ps).orders, o.id = id → ¬ (0 < qty ∧ qty ≤ o.remaining)) ∧
        b.modifyOrder ord id price qty = (false, b) := by
  refine (h.toStored.modifyOrder_cases ord id price qty).imp_left ?_
  rintro ⟨o, ho, hid, hpos, hle, b', ps', hmodify, hstored, hmod⟩
  exact ⟨o, ho, hid, hpos, hle, b', ps', hmodify,
    ⟨hstored, hmod.displayed ho h.display⟩, hmod⟩

end OrderBook

end LiquidityArena

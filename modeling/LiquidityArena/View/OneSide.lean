import LiquidityArena.View.Shares

/-!
# The matching loop looks at one side

What a trade does to the side of the maker is determined by that side, by the maker and by
the quantity, and two trades in a row with one maker do what one trade of both quantities
does. So a loop depends only on the side it takes from and on how much it may take, and a
quantity can be taken in two parts.
-/

namespace LiquidityArena

open MatchingEngine OrderBook

namespace BookView

variable {s : Bool} {u u' v v' w w' : BookView} {i i' j j' k k' m : Order} {p q t : Int}
  {trades trades' : List (Order × Int)}

/-- Two views agree on a side: on its queues, its depth counters and its best price. -/
structure AgreeOn (s : Bool) (v w : BookView) : Prop where
  level : ∀ t, v.level s t = w.level s t
  total : ∀ t, v.total s t = w.total s t
  best : v.best s = w.best s

private theorem AgreeOn.refl (s : Bool) (v : BookView) : AgreeOn s v v :=
  ⟨fun _ => rfl, fun _ => rfl, rfl⟩

/-- Agreeing on a side is symmetric. -/
theorem AgreeOn.symm (h : AgreeOn s v w) : AgreeOn s w v :=
  ⟨fun t => (h.level t).symm, fun t => (h.total t).symm, h.best.symm⟩

/-- Agreeing on a side is transitive. -/
theorem AgreeOn.trans (h : AgreeOn s u v) (h' : AgreeOn s v w) : AgreeOn s u w :=
  ⟨fun t => (h.level t).trans (h'.level t), fun t => (h.total t).trans (h'.total t),
    h.best.trans h'.best⟩

/-- The front order `m` of the best price gives `q`, and leaves when that is all of it. The best
price is searched again when a level with a last order of the named side has become empty. -/
structure Took (s : Bool) (m : Order) (q : Int) (v v' : BookView) : Prop where
  level : ∃ rest, v.level s m.price = m :: rest ∧ ∀ t, v'.level s t =
    if t = m.price then (if q = m.remaining then rest else m.fill q :: rest) else v.level s t
  total : ∀ t, v'.total s t = if t = m.price then
    (if v'.level s t = [] then 0 else toInt32 (v.total s t - q)) else v.total s t
  best : v.best s = m.price
  searched : v'.level s m.price = [] → m.side = Side.ofBid s → v'.Topped s ∧ v'.Anchored s
  kept : ¬ (v'.level s m.price = [] ∧ m.side = Side.ofBid s) → v'.best s = v.best s

/-- What a trade does to the side of the maker. -/
theorem Trade.took (h : v.Trade i m q v') (hv : v.Opposed !i.side.isBid) :
    Took (!i.side.isBid) m q v v' := by
  have hside : m.side.isBid = !i.side.isBid := h.maker_at.2.1
  have hbest : v.best (!i.side.isBid) = m.price := h.maker_at.2.2.symm
  have hlevel := h.level_other hv.sound
  have hi : ∀ t, ¬ i.At (!i.side.isBid) t := fun t hat => by simpa using hat.1
  have hm : ∀ t, m.At (!i.side.isBid) t ↔ t = m.price := fun t =>
    ⟨fun hat => hat.2.symm, fun ht => ⟨hside, ht.symm⟩⟩
  have hfill : ∀ t, (v.fill m i q).total (!i.side.isBid) t =
      if t = m.price then toInt32 (v.total (!i.side.isBid) t - q)
      else v.total (!i.side.isBid) t := by
    intro t
    simp only [fill, hi, if_false, hm]
  obtain ⟨-, -, hqm⟩ := h.qty_bounds hv.sound
  rcases h.after_cases with ⟨hle, hdrop⟩ | ⟨hlt, -, rfl⟩
  · have hzero : (m.fill q).remaining = 0 := by
      rw [Order.remaining_fill]
      omega
    refine ⟨hlevel, fun t => ?_, hbest, fun hnil hnamed => ?_, fun hkeep => ?_⟩
    · rw [hdrop.total, hfill, hzero, sub_zero]
      simp only [Order.at_fill, hm]
      split_ifs <;> simp
    · refine ⟨(h.opposed hv).topped, ?_⟩
      have hscan := hdrop.best (!i.side.isBid)
      rw [if_pos ⟨hnamed, hbest.symm, hnil⟩] at hscan
      exact Or.imp_right occupied_iff.mpr hscan.mem
    · have hscan := hdrop.best (!i.side.isBid)
      rwa [if_neg fun hc => hkeep ⟨hc.2.2, hc.1⟩] at hscan
  · obtain ⟨rest, -, hafter⟩ := hlevel
    have hne : (v.fill m i q).level (!i.side.isBid) m.price ≠ [] := by
      rw [hafter, if_pos rfl, if_neg hlt.ne]
      exact List.cons_ne_nil _ _
    refine ⟨h.level_other hv.sound, fun t => ?_, hbest, fun hnil => absurd hnil hne, fun _ => rfl⟩
    rw [hfill]
    by_cases ht : t = m.price
    · rw [if_pos ht, if_pos ht, if_neg (ht ▸ hne)]
    · rw [if_neg ht, if_neg ht]

/-- The side after a trade is determined by the side before it. -/
theorem Took.agree (h : Took s m q v v') (h' : Took s m q w w') (hagree : AgreeOn s v w) :
    AgreeOn s v' w' := by
  obtain ⟨rest, hrest, hlevel⟩ := h.level
  obtain ⟨rest', hrest', hlevel'⟩ := h'.level
  have hsame : rest = rest' := by
    rw [hagree.level, hrest'] at hrest
    exact (List.cons.inj hrest).2.symm
  have hall : ∀ t, v'.level s t = w'.level s t := by
    intro t
    rw [hlevel, hlevel', hsame, hagree.level]
  refine ⟨hall, fun t => ?_, ?_⟩
  · rw [h.total, h'.total, hall, hagree.total]
  · by_cases hsearch : v'.level s m.price = [] ∧ m.side = Side.ofBid s
    · obtain ⟨ht, ha⟩ := h.searched hsearch.1 hsearch.2
      obtain ⟨ht', ha'⟩ := h'.searched (hall m.price ▸ hsearch.1) hsearch.2
      refine ht'.best_unique ha' ht ha fun t => ?_
      rw [← level_ne_nil_iff, ← level_ne_nil_iff, hall]
    · rw [h.kept hsearch, h'.kept (hall m.price ▸ hsearch), hagree.best]

/-- Two trades with one maker do what one trade does. -/
theorem Took.merge (h : Took s m p v w) (hlt : p < m.remaining) (hagree : AgreeOn s w u)
    (h' : Took s (m.fill p) q u u') : Took s m (p + q) v u' := by
  obtain ⟨rest, hrest, hlevel⟩ := h.level
  obtain ⟨rest', hrest', hlevel'⟩ := h'.level
  have hmid : w.level s m.price = m.fill p :: rest := by
    rw [hlevel, if_pos rfl, if_neg hlt.ne]
  have hne : w.level s m.price ≠ [] := by
    rw [hmid]
    exact List.cons_ne_nil _ _
  rw [Order.price_fill, ← hagree.level, hmid] at hrest'
  obtain rfl := (List.cons.inj hrest').2
  simp only [Order.price_fill, Order.remaining_fill, Order.fill_fill] at hlevel'
  have hbest : w.best s = v.best s := h.kept fun hnil => hne hnil.1
  refine ⟨⟨rest, hrest, fun t => ?_⟩, fun t => ?_, h.best, h'.searched, fun hkeep => ?_⟩
  · rw [hlevel', ← hagree.level, hlevel]
    by_cases ht : t = m.price
    · simp only [ht, if_true, eq_sub_iff_add_eq']
    · simp only [ht, if_false]
  · rw [h'.total, ← hagree.total, Order.price_fill]
    have hmade := h.total t
    by_cases ht : t = m.price
    · rw [if_pos ht, if_neg (ht ▸ hne)] at hmade
      rw [if_pos ht, if_pos ht, hmade, toInt32_toInt32_sub, sub_sub]
    · rw [if_neg ht] at hmade
      rw [if_neg ht, if_neg ht, hmade]
  · rw [h'.kept hkeep, ← hagree.best, hbest]

/-- The loop cannot go on, however much it might still take. -/
def Shut (v : BookView) (i : Order) : Prop :=
  v.best (!i.side.isBid) = invalidPrice ∨ Incompatible i (v.best (!i.side.isBid)) ∨
    v.level (!i.side.isBid) (v.best (!i.side.isBid)) = []

private theorem stops_iff : v.Stops i ↔ i.remaining ≤ 0 ∨ v.Shut i := Iff.rfl

private theorem Trade.not_shut (h : v.Trade i m q v') : ¬ v.Shut i := by
  rintro (hinv | hinc | hnil)
  · exact h.valid hinv
  · exact h.compatible hinc
  · have hhead := h.maker
    rw [hnil] at hhead
    cases hhead

private theorem Trade.not_stops (h : v.Trade i m q v') : ¬ v.Stops i := by
  rw [stops_iff, not_or]
  exact ⟨not_le.mpr h.unfilled, h.not_shut⟩

/-- The two orders trade on the same terms. -/
structure Alike (i j : Order) : Prop where
  side : i.side = j.side
  price : i.price = j.price
  type : i.type = j.type

private theorem Alike.symm (h : Alike i j) : Alike j i := ⟨h.side.symm, h.price.symm, h.type.symm⟩

private theorem Alike.trans (h : Alike i j) (h' : Alike j k) : Alike i k :=
  ⟨h.side.trans h'.side, h.price.trans h'.price, h.type.trans h'.type⟩

private theorem Alike.shut_iff (h : Alike i j) (hagree : AgreeOn (!i.side.isBid) v w) :
    v.Shut i ↔ w.Shut j := by
  rw [Shut, Shut, ← h.side, ← hagree.best, ← hagree.level, Incompatible, Incompatible, ← h.side,
    ← h.price, ← h.type]

/-- What the loop relies on to take limit orders of a side in their turn. -/
structure Plain (v : BookView) (s : Bool) : Prop extends v.Opposed s where
  limits : v.All (·.type ≠ .iceberg)

private theorem Trade.plain (h : v.Trade i m q v') {s : Bool} (hv : v.Plain s) : v'.Plain s :=
  ⟨h.opposed hv.toOpposed, h.all hv.sound (fun hx => hx) (fun hx => hx) hv.limits⟩

/-- A limit order offers all that remains of it. -/
theorem Trade.qty_eq (h : v.Trade i m q v') {s : Bool} (hv : v.Plain s) :
    q = min i.remaining m.remaining := by
  have hlimit := hv.limits m h.maker_at.1
  rw [h.qty, makerAvailable, if_neg fun hice => hlimit hice.1]

/-- Both loops take from the same maker. -/
theorem Trade.maker_eq {m' : Order} {q' : Int} (h : v.Trade i m q v') (h' : w.Trade j m' q' w')
    (hagree : AgreeOn (!i.side.isBid) v w) (hij : Alike i j) : m = m' := by
  have hhead := h.maker
  rw [hagree.best, hagree.level, hij.side, h'.maker] at hhead
  exact (Option.some.inj hhead).symm

private theorem Alike.fill (h : Alike i j) (p q : Int) : Alike (i.fill p) (j.fill q) :=
  ⟨h.side, h.price, h.type⟩

/-- Loops that may take the same from the same side do the same. -/
theorem Matched.agree (h : v.Matched i trades v' i') (h' : w.Matched j trades' w' j')
    (hv : v.Plain !i.side.isBid) (hw : w.Plain !i.side.isBid)
    (hagree : AgreeOn (!i.side.isBid) v w) (hij : Alike i j) (hrem : i.remaining = j.remaining) :
    trades = trades' ∧ AgreeOn (!i.side.isBid) v' w' ∧ i'.remaining = j'.remaining := by
  induction h generalizing w j trades' with
  | @stop v i hstop =>
    have hstop' : w.Stops j := by
      rwa [stops_iff, ← hij.shut_iff hagree, ← hrem]
    cases h' with
    | stop _ => exact ⟨rfl, hagree, hrem⟩
    | step htrade _ => exact absurd hstop' htrade.not_stops
  | @step v v₁ v' i i' m q trades htrade hrest ih =>
    cases h' with
    | stop hstop =>
      refine absurd ?_ htrade.not_stops
      rwa [stops_iff, hij.shut_iff hagree, hrem]
    | @step _ w₁ _ _ _ m' q' trades' htrade' hrest' =>
      obtain rfl := htrade.maker_eq htrade' hagree hij
      have hq : q = q' := by rw [htrade.qty_eq hv, htrade'.qty_eq hw, hrem]
      subst hq
      have htook := htrade'.took (hij.side ▸ hw.toOpposed)
      rw [← hij.side] at htook
      obtain ⟨heq, hsame, hleft⟩ := ih hrest' (htrade.plain hv) (htrade'.plain hw)
        ((htrade.took hv.toOpposed).agree htook hagree) (hij.fill q q)
        (by rw [Order.remaining_fill, Order.remaining_fill, hrem])
      exact ⟨by rw [heq], hsame, hleft⟩

end BookView

/-- The executed quantities in total, each weighed by the id and the price of its maker. -/
def weighed (f : OrderId → Int → Int) (trades : List (Order × Int)) : Int :=
  (trades.map fun trade => f trade.1.id trade.1.price * trade.2).sum

/-- The weight of some trades is that of the first and of the rest. -/
theorem weighed_cons (f : OrderId → Int → Int) (trade : Order × Int) (trades : List (Order × Int)) :
    weighed f (trade :: trades) = f trade.1.id trade.1.price * trade.2 + weighed f trades := by
  rw [weighed, List.map_cons, List.sum_cons]
  rfl

namespace BookView

variable {u u' v v' w w' : BookView} {i i' j j' k k' m : Order} {q : Int}
  {trades trades₁ trades₂ : List (Order × Int)}

/-- A loop that may take nothing does nothing. -/
theorem Matched.of_filled (h : v.Matched i trades v' i') (hrem : i.remaining ≤ 0) :
    trades = [] ∧ v' = v ∧ i' = i := by
  cases h with
  | stop _ => exact ⟨rfl, rfl, rfl⟩
  | step htrade _ => exact absurd htrade.unfilled (not_lt.mpr hrem)

private theorem Matched.of_shut (h : v.Matched i trades v' i') (hshut : v.Shut i) :
    trades = [] ∧ v' = v ∧ i' = i := by
  cases h with
  | stop _ => exact ⟨rfl, rfl, rfl⟩
  | step htrade _ => exact absurd hshut htrade.not_shut

section Partial

variable (h : v.Trade i m q v') (hv : v.Opposed !i.side.isBid) (hlt : q < m.remaining)

include h hv hlt

/-- A maker that keeps something stays in front at the best price. -/
theorem Trade.front_rest : v'.best (!i.side.isBid) = v.best (!i.side.isBid) ∧
    (v'.level (!i.side.isBid) (v.best (!i.side.isBid))).head? = some (m.fill q) := by
  have htook := h.took hv
  obtain ⟨back, hback⟩ := h.queued_rest hv.sound hlt
  rw [List.nil_append] at hback
  refine ⟨htook.kept fun hnil => ?_, ?_⟩
  · rw [hback] at hnil
    exact absurd hnil.1 (List.cons_ne_nil _ _)
  · rw [htook.best, hback]
    rfl

private theorem Trade.not_shut_after : ¬ v'.Shut i := by
  obtain ⟨hbest, hfront⟩ := h.front_rest hv hlt
  rw [Shut, hbest]
  rintro (hinv | hinc | hnil)
  · exact h.valid hinv
  · exact h.compatible hinc
  · rw [hnil] at hfront
    cases hfront

/-- The next loop starts with the rest of this maker. -/
theorem Trade.next_maker {m' : Order} {q' : Int} (h' : u.Trade k m' q' u')
    (hagree : AgreeOn (!i.side.isBid) v' u) (hik : Alike i k) : m' = m.fill q := by
  obtain ⟨hbest, hfront⟩ := h.front_rest hv hlt
  have hhead := h'.maker
  rw [← hik.side, ← hagree.best, ← hagree.level, hbest, hfront] at hhead
  exact (Option.some.inj hhead).symm

end Partial

/-- The first of two parts ends within a maker. The second part goes on with the same maker, and a
loop for both trades with it once. -/
theorem Trade.split_within {v₁ : BookView} {q' : Int} (first : w.Trade j m q w')
    (second : u.Matched k trades₂ u' k') (whole : v.Trade i m q' v₁)
    (hrest : v₁.Matched (i.fill q') trades v' i') (hw : w.Plain !i.side.isBid)
    (hu : u.Plain !i.side.isBid) (hv : v.Plain !i.side.isBid) (hvw : AgreeOn (!i.side.isBid) v w)
    (hwu : AgreeOn (!i.side.isBid) w' u) (hij : Alike i j) (hik : Alike i k)
    (hk : 0 ≤ k.remaining) (hrem : i.remaining = j.remaining + k.remaining)
    (hlt : j.remaining < m.remaining) (f : OrderId → Int → Int) :
    AgreeOn (!i.side.isBid) v' u' ∧
      weighed f ((m, q') :: trades) = weighed f [(m, q)] + weighed f trades₂ ∧
      i'.remaining = (j.fill q).remaining + k'.remaining := by
  have hw' : w.Opposed !j.side.isBid := hij.side ▸ hw.toOpposed
  have hjk : Alike j k := hij.symm.trans hik
  have hwu' : AgreeOn (!j.side.isBid) w' u := hij.side ▸ hwu
  have hq := first.qty_eq (hij.side ▸ hw)
  have hq' := whole.qty_eq hv
  have htook := first.took hw'
  have htook' := whole.took hv.toOpposed
  rw [← hij.side] at htook
  have hkeeps : q < m.remaining := by omega
  cases second with
  | stop hstop =>
    have hzero : k.remaining = 0 := by
      rcases stops_iff.mp hstop with hle | hshut
      · omega
      · exact absurd ((hjk.shut_iff hwu').mpr hshut) (first.not_shut_after hw' hkeeps)
    obtain rfl : q' = q := by omega
    obtain ⟨rfl, rfl, rfl⟩ := hrest.of_filled (by rw [Order.remaining_fill]; omega)
    refine ⟨(htook'.agree htook hvw).trans hwu, ?_, ?_⟩
    · simp [weighed]
    · rw [Order.remaining_fill, Order.remaining_fill]
      omega
  | @step _ u₁ _ _ _ m' q'' trades₂ htrade hrest₂ =>
    obtain rfl := first.next_maker hw' hkeeps htrade hwu' hjk
    have hq'' := htrade.qty_eq (hik.side ▸ hu)
    rw [Order.remaining_fill] at hq''
    obtain rfl : q' = q + q'' := by
      have hunfilled := htrade.unfilled
      omega
    have htook'' := htrade.took (hik.side ▸ hu.toOpposed)
    rw [← hik.side] at htook''
    have hagree := htook'.agree (htook.merge hkeeps hwu htook'') hvw
    obtain ⟨rfl, hsame, hleft⟩ := hrest.agree hrest₂ (whole.plain hv) (htrade.plain hu)
      hagree (hik.fill _ _) (by rw [Order.remaining_fill, Order.remaining_fill]; omega)
    refine ⟨hsame, ?_, ?_⟩
    · rw [weighed_cons, weighed_cons, weighed_cons]
      simp only [weighed, List.map_nil, List.sum_nil, Order.id_fill, Order.price_fill]
      ring
    · rw [hleft, Order.remaining_fill]
      omega

/-- A loop that may take two parts does what a loop for one part and then one for the other do. -/
theorem Matched.split (first : w.Matched j trades₁ w' j') (second : u.Matched k trades₂ u' k')
    (whole : v.Matched i trades v' i') (hw : w.Plain !i.side.isBid) (hu : u.Plain !i.side.isBid)
    (hv : v.Plain !i.side.isBid) (hvw : AgreeOn (!i.side.isBid) v w)
    (hwu : AgreeOn (!i.side.isBid) w' u) (hij : Alike i j) (hik : Alike i k)
    (hj : 0 ≤ j.remaining) (hk : 0 ≤ k.remaining) (hrem : i.remaining = j.remaining + k.remaining)
    (f : OrderId → Int → Int) :
    AgreeOn (!i.side.isBid) v' u' ∧ weighed f trades = weighed f trades₁ + weighed f trades₂ ∧
      i'.remaining = j'.remaining + k'.remaining := by
  induction first generalizing v i trades with
  | @stop w j hstop =>
    have hvu := hvw.trans hwu
    rcases stops_iff.mp hstop with hle | hshut
    · obtain ⟨rfl, hsame, hleft⟩ := whole.agree second hv hu hvu hik (by omega)
      refine ⟨hsame, (zero_add _).symm, ?_⟩
      omega
    · have hshut' := (hij.shut_iff hvw).mpr hshut
      obtain ⟨rfl, rfl, rfl⟩ := whole.of_shut hshut'
      obtain ⟨rfl, rfl, rfl⟩ := second.of_shut ((hik.shut_iff hvu).mp hshut')
      exact ⟨hvu, rfl, hrem⟩
  | @step w w₁ w' j j' m q trades₁ htrade hrest ih =>
    have hw' : w.Opposed !j.side.isBid := hij.side ▸ hw.toOpposed
    have hopen : ¬ v.Stops i := by
      rw [stops_iff, hij.shut_iff hvw, not_or]
      have hunfilled := htrade.unfilled
      exact ⟨by omega, htrade.not_shut⟩
    cases whole with
    | stop hstop => exact absurd hstop hopen
    | @step _ v₁ _ _ _ m' q' trades htrade' hrest' =>
      obtain rfl := htrade'.maker_eq htrade hvw hij
      have hq := htrade.qty_eq hw
      have hq' := htrade'.qty_eq hv
      have htook := htrade.took hw'
      have htook' := htrade'.took hv.toOpposed
      rw [← hij.side] at htook
      by_cases hle : m'.remaining ≤ j.remaining
      · -- the first part takes the whole maker, and so does the loop for both
        obtain rfl : q' = q := by omega
        obtain ⟨hsame, hsum, hleft⟩ := ih hrest' (htrade.plain hw) hu (htrade'.plain hv)
          (htook'.agree htook hvw) hwu (hij.fill q' q') ⟨hik.side, hik.price, hik.type⟩
          (by rw [Order.remaining_fill]; omega)
          (by rw [Order.remaining_fill, Order.remaining_fill]; omega)
        refine ⟨hsame, ?_, hleft⟩
        rw [weighed_cons, weighed_cons, hsum, add_assoc]
      · -- the first part ends within the maker
        obtain ⟨rfl, rfl, rfl⟩ := hrest.of_filled (by rw [Order.remaining_fill]; omega)
        exact htrade.split_within second htrade' hrest' hw hu hv hvw hwu hij hik hk hrem (by omega) f

variable {n : NewOrder}

/-- An order that enters leaves the other side as it is. -/
theorem agreeOn_enter (v : BookView) (o : Order) : AgreeOn (!o.side.isBid) v (v.enter o) where
  level t := (level_enter_other v o t).symm
  total t := by simp [enter, place, Order.At]
  best := (best_enter_other v o).symm

/-- An incoming order that is settled leaves the other side as it is. -/
theorem Settled.agreeOn {type : OrderType} (h : Settled type w i v') (hw : w.Sound)
    (hi : i ∈ w.orders) : AgreeOn (!i.side.isBid) w v' := by
  rw [Settled] at h
  split at h
  · refine ⟨fun t => ?_, fun t => ?_, ?_⟩
    · rw [h.level_eq, List.filter_eq_self.mpr]
      intro x hx
      obtain ⟨hx, hat⟩ := mem_level.mp hx
      rw [bne_iff_ne]
      intro hid
      rw [hw.eq_of_id hx hi hid] at hat
      simpa using hat.1
    · rw [h.total, if_neg fun hat => by simpa using hat.1]
    · have hbest := h.best (!i.side.isBid)
      rw [if_neg] at hbest
      · exact hbest.symm
      · rintro ⟨hside, -⟩
        have hbid := congrArg Side.isBid hside
        simp at hbid
  · rw [h]
    exact AgreeOn.refl _ _

/-- The loop takes off the depth of its own level what it takes off the incoming order. -/
theorem Matched.resting_own (h : v.Matched i trades v' i') (hv : v.Sound) :
    v'.depth Order.remaining i.side.isBid i.price - i'.remaining =
      v.depth Order.remaining i.side.isBid i.price - i.remaining := by
  induction h with
  | stop _ => rfl
  | @step v v₁ v' i i' m q trades htrade _ ih =>
    have hrec := ih (htrade.sound hv)
    have hm : ¬ m.At i.side.isBid i.price := fun hat => by
      simpa [htrade.maker_at.2.1] using hat.1
    have hi : i.At i.side.isBid i.price := ⟨rfl, rfl⟩
    have hsum : v₁.depth Order.remaining i.side.isBid i.price =
        v.depth Order.remaining i.side.isBid i.price - q := by
      rw [depth, htrade.sumOver_remaining hv byPlace_at, decide_eq_true hi, decide_eq_false hm,
        if_pos rfl, if_neg Bool.false_ne_true, sub_zero]
      rfl
    rw [Order.side_fill, Order.price_fill, Order.remaining_fill] at hrec
    omega

/-- What an accepted order that may rest does when its side is named. -/
theorem Effect.matched_of_named (h : v.Effect (.newOrder n) trades v') (hacc : v.Accepts n)
    (hty : n.type ≠ .market) (hside : n.side.Named) :
    ∃ w i, (v.enter n.order).Matched n.order trades w i ∧ Settled n.type w i v' := by
  cases h with
  | refused hno => exact absurd hacc hno
  | rested _ _ hcross =>
    refine ⟨_, _, .stop (stops_iff.mpr (Or.inr ?_)), ?_⟩
    · rw [Shut, best_enter_other, incompatible_iff (n.limited_order hty), n.side_order,
        n.price_order hty, ← or_assoc]
      refine Or.inl ?_
      by_contra hmeets
      rw [not_or] at hmeets
      exact hcross ⟨hside, hmeets⟩
    · rw [Settled, if_neg]
      exact fun hiff => hty (hiff.mpr (by simpa using hacc.valid.quantity_pos))
  | matched _ _ hmatched hsettled => exact ⟨_, _, hmatched, hsettled⟩

/-- What is left of an order that may rest is added to the depth of its level. -/
theorem Settled.depth_eq {type : OrderType} (h : Settled type w i v') (hty : type ≠ .market)
    (hw : w.Sound) (hi : i ∈ w.orders) (s : Bool) (t : Int) :
    v'.depth Order.remaining s t = w.depth Order.remaining s t := by
  rw [Settled] at h
  split at h
  · rename_i hiff
    have hzero : i.remaining = 0 := by
      have hnonneg := hw.nonneg i hi
      have hle : ¬ 0 < i.remaining := fun hpos => hty (hiff.mpr hpos)
      omega
    rw [h.depth hw hi, hzero, ite_self, sub_zero]
  · rw [h]

/-- Entering an order adds its quantity at its price. -/
theorem depth_enter (hty : n.type ≠ .market) :
    (v.enter n.order).depth Order.remaining n.side.isBid n.price =
      v.depth Order.remaining n.side.isBid n.price + n.quantity := by
  rw [enter, depth_place, if_pos ⟨by rw [n.side_order], n.price_order hty⟩, n.remaining_order]

/-- A new order of a named side that may rest is matched; what is left of it rests. -/
theorem Effect.outcome (h : v.Effect (.newOrder n) trades v') (hv : v.Sound) (hacc : v.Accepts n)
    (hty : n.type ≠ .market) (hside : n.side.Named) :
    ∃ w i, (v.enter n.order).Matched n.order trades w i ∧ AgreeOn (!n.side.isBid) w v' ∧
      v'.depth Order.remaining n.side.isBid n.price =
        v.depth Order.remaining n.side.isBid n.price + i.remaining := by
  have hsound := hv.enter hacc
  obtain ⟨w, i, hmatched, hsettled⟩ := h.matched_of_named hacc hty hside
  obtain ⟨hw, hi⟩ := hmatched.sound hsound (by simp [enter, place])
  have hagree := hsettled.agreeOn hw hi
  have hdepth := hmatched.resting_own hsound
  rw [n.side_order, n.price_order hty, n.remaining_order, depth_enter hty] at hdepth
  refine ⟨w, i, hmatched, ?_, ?_⟩
  · obtain ⟨filled, rfl⟩ := hmatched.taker
    rwa [Order.side_fill, n.side_order] at hagree
  · rw [hsettled.depth_eq hty hw hi]
    omega

end BookView

end LiquidityArena

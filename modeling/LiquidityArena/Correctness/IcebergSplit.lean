import LiquidityArena.View.Shares

/-!
# The hidden reserve of an iceberg

An iceberg enters with the part of its quantity that is not displayed as hidden reserve,
and nothing changes the reserve afterwards. It stays part of what is left to execute as
long as the display covers everything that is executed or taken back: an order that takes
more from an iceberg than its display, an iceberg that takes more than its own display
before it rests, a modify to less than the reserve, and a display beyond the quantity all
break the split.
-/

namespace LiquidityArena

open MatchingEngine OrderBook

/-- An iceberg displays something, and its reserve is part of what is left to execute. -/
def Order.SplitOk (o : Order) : Prop :=
  o.type = .iceberg → 0 < o.displayQty ∧ 0 ≤ o.hiddenQty ∧ o.hiddenQty ≤ o.remaining

namespace OrderBook

/-- Every resting iceberg is split well. -/
def SplitsOk (b : OrderBook) : Prop := ∀ s, ∀ o ∈ b.ordersOf s, o.SplitOk

/-- The new order leaves no iceberg of the other side with less than its reserve. -/
def SparesReserves (b : OrderBook) (n : NewOrder) : Prop :=
  ∀ o ∈ b.ordersOf (!n.side.isBid), o.type = .iceberg → ¬ Incompatible n.order o.price →
    n.quantity - b.ahead o < o.remaining →
    o.hiddenQty ≤ o.remaining - max 0 (n.quantity - b.ahead o)

/-- If some of a new iceberg rests, its display is within its quantity and covers what it
executes before. -/
def RestsSplit (b : OrderBook) (n : NewOrder) : Prop :=
  n.type = .iceberg → b.volumeTo (!n.side.isBid) n.price < n.quantity →
    n.displayQty ≤ n.quantity ∧ b.volumeTo (!n.side.isBid) n.price ≤ n.displayQty

end OrderBook

/-- The call leaves the splits of the icebergs well-formed. -/
def KeepsSplits (b : OrderBook) : Call → Prop
  | .newOrder n => b.Admits n → b.SparesReserves n ∧ b.RestsSplit n
  | .cancel _ => True
  | .modify id price qty => ∀ o, b.orderOf id = some o → o.type = .iceberg → 0 < qty →
      qty ≤ o.remaining → if price = o.price then o.hiddenQty ≤ qty else o.displayQty ≤ qty

namespace OrderBook.Shows

variable {b b' : OrderBook} {v v' : BookView} {n : NewOrder} {trades : List (Order × Int)}
  {call : Call}

private theorem splitsOk_iff (h : b.Shows v) : b.SplitsOk ↔ v.All Order.SplitOk := by
  rw [SplitsOk, BookView.All]
  simp only [h.mem_ordersOf]
  exact ⟨fun hall o ho => hall _ o ⟨ho, rfl⟩, fun hall s o ho => hall o ho.1⟩

/-- What is left of an iceberg is split well if it is at least the reserve. -/
theorem splitOk_fill_iff {o : Order} (hok : o.SplitOk) (q : Int) :
    (o.fill q).SplitOk ↔ (o.type = .iceberg → o.hiddenQty ≤ o.remaining - q) := by
  rw [Order.SplitOk, Order.type_fill, Order.displayQty_fill, Order.hiddenQty_fill,
    Order.remaining_fill]
  refine forall_congr' fun hice => ?_
  obtain ⟨hdisplay, hhidden, -⟩ := hok hice
  exact ⟨fun hfill => hfill.2.2, fun hle => ⟨hdisplay, hhidden, hle⟩⟩

/-- The orders of the other side stay split well if the new order spares their reserves. -/
theorem sparesReserves_iff (h : b.Shows v) (hv : v.Regular) (hall : v.All Order.SplitOk) :
    b.SparesReserves n ↔
      ∀ o ∈ v.orders, b.taken n o < o.remaining → (o.fill (b.taken n o)).SplitOk := by
  rw [SparesReserves]
  constructor
  · intro hspares o ho hlt
    rw [splitOk_fill_iff (hall o ho)]
    intro hice
    rw [taken] at hlt ⊢
    split_ifs at hlt ⊢ with hapart
    · rw [sub_zero]
      exact (hall o ho hice).2.2
    · rw [not_or] at hapart
      have hmem := h.mem_ordersOf.mpr ⟨ho, Bool.eq_not_of_ne hapart.1⟩
      rw [Order.share] at hlt ⊢
      have hle := hspares o hmem hice hapart.2 (by omega)
      omega
  · intro hfills o ho hice hmeets hlt
    obtain ⟨hmem, hside⟩ := h.mem_ordersOf.mp ho
    have htaken : b.taken n o = o.share (n.quantity - b.ahead o) := by
      refine if_neg (not_or.mpr ⟨?_, hmeets⟩)
      simp [hside]
    have hpos := hv.live o hmem
    rw [Order.share] at htaken
    have hfill := hfills o hmem (by omega)
    rw [splitOk_fill_iff (hall o hmem)] at hfill
    have hle := hfill hice
    omega

end OrderBook.Shows

namespace BookView

variable {v v' : BookView} {o : Order} {n : NewOrder} {price qty : Int}

/-- A new iceberg that has executed something is split well if its display is within its
quantity and covers what it executed. -/
theorem splitOk_order_iff (hvalid : n.Valid) (q : Int) :
    (n.order.fill q).SplitOk ↔
      (n.type = .iceberg → n.displayQty ≤ n.quantity ∧ q ≤ n.displayQty) := by
  rw [Order.SplitOk, Order.type_fill, n.type_order_eq_iceberg, Order.remaining_fill,
    Order.displayQty_fill, Order.hiddenQty_fill, n.remaining_order]
  refine forall_congr' fun hice => ?_
  have hdisplay := hvalid.displayQty_pos hice
  rw [n.displayQty_order hice, n.hiddenQty_order hice]
  omega

/-- An order under new terms is split well if its display is within the new quantity. -/
theorem splitOk_reentry_iff (hok : o.SplitOk) (price qty : Int) :
    (reentry o price qty).SplitOk ↔ (o.type = .iceberg → o.displayQty ≤ qty) := by
  rw [Order.SplitOk, remaining_reentry, reentry]
  by_cases hice : o.type = .iceberg
  · have hdisplay := (hok hice).1
    rw [if_pos hice]
    simp only [icebergOrder, hice, true_implies]
    omega
  · rw [if_neg hice]
    simp [hice, limitOrder]

/-- An applied modify of an order that is split well. -/
theorem Modified.splitOk_iff (h : v.Modified o price qty v') (hv : v.Sound) (ho : o ∈ v.orders)
    (hall : v.All Order.SplitOk) : v'.All Order.SplitOk ↔
      (o.type = .iceberg → if price = o.price then o.hiddenQty ≤ qty else o.displayQty ≤ qty) := by
  cases h with
  | inPlace hprice =>
    have hshrink : (o.shrink qty).SplitOk ↔ (o.type = .iceberg → o.hiddenQty ≤ qty) := by
      rw [Order.SplitOk, Order.type_shrink, Order.displayQty_shrink, Order.hiddenQty_shrink,
        Order.remaining_shrink]
      refine forall_congr' fun hice => ?_
      obtain ⟨hdisplay, hhidden, -⟩ := hall o ho hice
      exact ⟨fun hok => hok.2.2, fun hle => ⟨hdisplay, hhidden, hle⟩⟩
    rw [if_pos hprice, ← hshrink]
    constructor
    · exact fun hall' => hall' _ (mem_amend.mpr ⟨o, ho, (if_pos rfl).symm⟩)
    · intro hok x hx
      obtain ⟨y, hy, rfl⟩ := mem_amend.mp hx
      split
      · rename_i hid
        rwa [hv.eq_of_id hy ho hid]
      · exact hall y hy
  | moved hne hdrop =>
    rw [if_neg hne, ← splitOk_reentry_iff (hall o ho) price qty]
    constructor
    · exact fun hall' => hall' _ (List.mem_append_right _ List.mem_cons_self)
    · intro hok x hx
      rcases List.mem_append.mp hx with hx | hx
      · exact hall x (hdrop.mem_iff.mp hx).1
      · rwa [List.mem_singleton.mp hx]

end BookView

/-- A call keeps the splits well-formed exactly if it meets the requirement. -/
theorem OrderBook.Shows.splitsOk_step {b b' : OrderBook} {v v' : BookView} {call : Call}
    {trades : List (Order × Int)} (h : b.Shows v) (hv : v.Regular) (hok : b.SplitsOk)
    (hrests : call.Rests) (hnamed : AdmitsNamed b call) (heffect : v.Effect call trades v')
    (h' : b'.Shows v') : v'.Regular ∧ (b'.SplitsOk ↔ KeepsSplits b call) := by
  refine ⟨heffect.regular_of_admits h hv hrests hnamed, ?_⟩
  rw [h.splitsOk_iff] at hok
  rw [h'.splitsOk_iff]
  cases call with
  | newOrder n =>
    by_cases hacc : v.Accepts n
    · have hty : n.type ≠ .market := by rcases hrests with hty | hty <;> simp [hty]
      have hadmits := h.admits_iff.mpr hacc
      rw [h.newOrder_all_iff hv hacc (hnamed hadmits) hty heffect h'.sound,
        ← h.sparesReserves_iff hv hok]
      simp only [KeepsSplits, hadmits, true_implies, RestsSplit,
        BookView.splitOk_order_iff hacc.valid]
      exact and_congr_right fun _ => forall_comm
    · rw [(heffect.of_refused hacc).2]
      exact iff_of_true hok fun hadmits => absurd (h.admits_iff.mp hadmits) hacc
  | cancel id =>
    refine iff_of_true ?_ trivial
    cases heffect with
    | cancelled _ hdrop => exact fun o ho => hok o (hdrop.mem_iff.mp ho).1
    | notFound _ => exact hok
  | modify id price qty =>
    cases heffect with
    | @modified o _ _ _ ho hpos hle hmod =>
      rw [hmod.splitOk_iff h.sound ho hok, KeepsSplits]
      constructor
      · intro hsplit x hx hice _ _
        rw [h.orderOf_eq_some_iff] at hx
        rw [h.sound.eq_of_id hx.1 ho hx.2] at hice ⊢
        exact hsplit hice
      · exact fun hkeeps hice => hkeeps o (h.orderOf_eq_some_iff.mpr ⟨ho, rfl⟩) hice hpos hle
    | unmodified hno =>
      refine iff_of_true hok fun x hx _ hpos hle => ?_
      rw [h.orderOf_eq_some_iff] at hx
      exact absurd ⟨hpos, hle⟩ (hno x hx.1 hx.2)

/-- A run of limit and iceberg orders, cancels and modifies whose accepted orders are bids and asks
keeps every iceberg split well throughout exactly when each of its calls keeps the splits. -/
theorem run_splitsOk_iff (fees : FeeSchedule) (calls : List (HashOrder × Call))
    (hcalls : ∀ c ∈ calls, c.2.Rests) (hnamed : (MatchingEngine.init fees).RunMeets AdmitsNamed calls) :
    (MatchingEngine.init fees).RunAlways SplitsOk calls ↔
      (MatchingEngine.init fees).RunMeets KeepsSplits calls :=
  MatchingEngine.runAlways_iff
    (fun h hv hok hcall heffect h' => h.splitsOk_step hv hok hcall.1 hcall.2 heffect h')
    OrderBook.shows_init BookView.regular_empty (by rintro (_ | _) o ho <;> cases ho)
    (hnamed.and_forall hcalls)

/-- An iceberg of 10 that shows 4, a bid that takes 3 of the slice and a modify to the reserve. -/
theorem run_splitsOk_iff_within_slice :
    (MatchingEngine.init {}).RunAlways SplitsOk
        [(HashOrder.recent, .newOrder ⟨1, .ask, .iceberg, 103, 10, 0, 4⟩),
          (HashOrder.recent, .newOrder ⟨2, .bid, .limit, 103, 3, 0, 0⟩),
          (HashOrder.recent, .modify 1 103 6)] ↔
      (MatchingEngine.init {}).RunMeets KeepsSplits
        [(HashOrder.recent, .newOrder ⟨1, .ask, .iceberg, 103, 10, 0, 4⟩),
          (HashOrder.recent, .newOrder ⟨2, .bid, .limit, 103, 3, 0, 0⟩),
          (HashOrder.recent, .modify 1 103 6)] :=
  run_splitsOk_iff {} _ (by decide) ⟨fun _ => Or.inr rfl, fun _ _ => ⟨fun _ => Or.inl rfl,
    fun _ _ => ⟨trivial, fun _ _ => trivial⟩⟩⟩

/-- A bid takes 6 from an iceberg of 10 that shows 4, and its reserve of 6 is more than the 4 that are
left. -/
theorem fill_beyond_display_leaves_reserve :
    ∃ e o, (MatchingEngine.init {}).run
        [(HashOrder.recent, .newOrder ⟨1, .ask, .iceberg, 103, 10, 0, 4⟩),
          (HashOrder.recent, .newOrder ⟨2, .bid, .limit, 103, 6, 0, 0⟩)] = some e ∧
      e.book.orderOf 1 = some o ∧ o.remaining = 4 ∧ o.hiddenQty = 6 ∧ ¬ e.book.SplitsOk := by
  refine ⟨_, _, rfl, rfl, by decide, by decide, fun hok => ?_⟩
  obtain ⟨-, -, hle⟩ := hok false _ (List.mem_cons_self) rfl
  exact absurd hle (by decide)

end LiquidityArena

import LiquidityArena.View.Observe

/-!
# Where the quantity of an order goes

A ledger follows every order id from each acceptance on: what the emitted fills that
name it have executed, what modifies took off, and what was discarded when the order
left the book. The ledger is kept from the fills and results of the calls alone; the
book agrees with it after every call of every run.
-/

namespace LiquidityArena

open MatchingEngine OrderBook

/-- The life of an order id from an acceptance on, with what was discarded at its end. -/
structure Lifetime where
  id : OrderId
  accepted : Int
  traded : Int := 0
  reduced : Int := 0
  discarded : Option Int := none
  deriving DecidableEq, Repr

namespace Lifetime

/-- What was accepted has been traded, taken off by modifies, or is left. -/
def Balances (l : Lifetime) (left : Int) : Prop := l.accepted = l.traded + l.reduced + left

/-- Enter a fill on an order that it names. -/
def trade (l : Lifetime) (fill : FillMsg) : Lifetime :=
  if l.discarded = none ∧ (l.id = fill.makerId ∨ l.id = fill.takerId) then
    { l with traded := l.traded + fill.quantity }
  else l

/-- Enter what a modify took off the order with an id. -/
def reduceBy (l : Lifetime) (id : OrderId) (amount : Int) : Lifetime :=
  if l.discarded = none ∧ l.id = id then { l with reduced := l.reduced + amount } else l

/-- An order that is no longer in the book has ended. -/
def close (l : Lifetime) (book : OrderBook) (left : OrderId → Int) : Lifetime :=
  if l.discarded = none ∧ book.orderOf l.id = none then { l with discarded := some (left l.id) }
  else l

end Lifetime

namespace MatchingEngine

/-- What `match_order` returns for a new order, if it is called. -/
def remainder (e : MatchingEngine) (ord : HashOrder) (n : NewOrder) : Int :=
  match e.entered n with
  | none => 0
  | some (p, e₀) =>
    ((e₀.matchOrder ord p).map fun matched => (matched.book.pool.get p).remaining).getD 0

/-- What is left of an order that a call takes out of the book: of a cancelled order its
remaining quantity, of the incoming order what `match_order` returns. -/
def leftover (e : MatchingEngine) (ord : HashOrder) (call : Call) (id : OrderId) : Int :=
  match call with
  | .newOrder n => if id = n.id then e.remainder ord n else 0
  | .cancel id' => if id = id' then ((e.book.orderOf id').map (·.remaining)).getD 0 else 0
  | .modify _ _ _ => 0

/-- What a modify that returns true takes off its order. -/
def reduction (e : MatchingEngine) (ord : HashOrder) : Call → Int
  | .modify id price qty =>
    if (e.processModify ord id price qty).1 then
      ((e.book.orderOf id).map (·.remaining)).getD 0 - qty
    else 0
  | _ => 0

end MatchingEngine

/-- The lifetimes of a run, in the order of their acceptances. -/
abbrev Ledger := List Lifetime

/-- A new order that the book takes begins a lifetime. -/
def Ledger.accept (ledger : Ledger) (e : MatchingEngine) : Call → Ledger
  | .newOrder n => if e.book.Admits n then ledger ++ [⟨n.id, n.quantity, 0, 0, none⟩] else ledger
  | _ => ledger

/-- The fills emitted between two states. -/
def MatchingEngine.fillsSince (e e' : MatchingEngine) : List FillMsg :=
  e'.fills.drop e.fills.length

/-- The ledger after a call that leads from one state to another. -/
def Ledger.after (ledger : Ledger) (e : MatchingEngine) (ord : HashOrder) (call : Call)
    (e' : MatchingEngine) : Ledger :=
  (ledger.accept e call).map fun l =>
    (((e.fillsSince e').foldl Lifetime.trade l).reduceBy call.id (e.reduction ord call)).close
      e'.book (e.leftover ord call)

/-- The ledger balances: what it says is left is what remains in the book, which has no orders
but those of the ledger. -/
structure Conserved (e : MatchingEngine) (ledger : Ledger) : Prop where
  live : ∀ l ∈ ledger, l.discarded = none →
    ∃ o, e.book.orderOf l.id = some o ∧ 0 ≤ o.remaining ∧ l.Balances o.remaining
  ended : ∀ l ∈ ledger, ∀ left, l.discarded = some left → 0 ≤ left ∧ l.Balances left
  known : ∀ id o, e.book.orderOf id = some o → ∃ l ∈ ledger, l.id = id ∧ l.discarded = none
  distinct : ((ledger.filter (·.discarded = none)).map (·.id)).Nodup

/-- A fill of an incoming order is with an order of the other side that rested before the
call, at its price, and within the limit of the incoming order. -/
def Honoured (e : MatchingEngine) (call : Call) (fill : FillMsg) : Prop :=
  ∃ n m, call = .newOrder n ∧ fill.takerId = n.id ∧ e.book.orderOf fill.makerId = some m ∧
    m.side.isBid = (!n.side.isBid) ∧ fill.price = m.price ∧
    (n.type = .limit ∨ n.type = .iceberg →
      if n.side.isBid then fill.price ≤ n.price else n.price ≤ fill.price)

/-- Every call of a run returns and honours the prices, and the ledger balances throughout. -/
def Audited (e : MatchingEngine) (ledger : Ledger) : List (HashOrder × Call) → Prop
  | [] => Conserved e ledger
  | (ord, call) :: calls => Conserved e ledger ∧ ∃ e', e.perform ord call = some e' ∧
      (∃ fills, e'.fills = e.fills ++ fills ∧ ∀ fill ∈ fills, Honoured e call fill) ∧
      Audited e' (ledger.after e ord call e') calls

namespace Lifetime

variable {l : Lifetime}

@[simp] theorem id_trade (fill : FillMsg) : (l.trade fill).id = l.id := by
  rw [trade]
  split <;> rfl

@[simp] theorem discarded_trade (fill : FillMsg) : (l.trade fill).discarded = l.discarded := by
  rw [trade]
  split <;> rfl

private theorem trade_of_not_named {fill : FillMsg} (hm : l.id ≠ fill.makerId)
    (ht : l.id ≠ fill.takerId) :
    l.trade fill = l := if_neg fun h => h.2.elim hm ht

private theorem Balances.trade {fill : FillMsg} {left : Int} (h : l.Balances left)
    (hopen : l.discarded = none)
    (hnamed : l.id = fill.makerId ∨ l.id = fill.takerId) :
    (l.trade fill).Balances (left - fill.quantity) := by
  rw [Lifetime.trade, if_pos ⟨hopen, hnamed⟩]
  rw [Balances] at h ⊢
  dsimp only
  omega

@[simp] theorem id_reduceBy (id : OrderId) (amount : Int) : (l.reduceBy id amount).id = l.id := by
  rw [reduceBy]
  split <;> rfl

@[simp] theorem discarded_reduceBy (id : OrderId) (amount : Int) :
    (l.reduceBy id amount).discarded = l.discarded := by
  rw [reduceBy]
  split <;> rfl

@[simp] theorem reduceBy_zero (id : OrderId) : l.reduceBy id 0 = l := by
  rw [reduceBy, add_zero, ite_self]

private theorem Balances.reduceBy {id : OrderId} {left : Int} (h : l.Balances left)
    (hopen : l.discarded = none) (hid : l.id = id) (left' : Int) :
    (l.reduceBy id (left - left')).Balances left' := by
  rw [Lifetime.reduceBy, if_pos ⟨hopen, hid⟩]
  rw [Balances] at h ⊢
  dsimp only
  omega

/-- An order that has ended is named by no later fill. -/
theorem foldl_trade_of_ended {left : Int} (h : l.discarded = some left) (fills : List FillMsg) :
    fills.foldl trade l = l := by
  induction fills with
  | nil => rfl
  | cons fill fills ih =>
    have hsame : l.trade fill = l := if_neg fun hl => by simp [h] at hl
    rw [List.foldl_cons, hsame, ih]

@[simp] theorem id_foldl_trade (fills : List FillMsg) : (fills.foldl trade l).id = l.id := by
  induction fills generalizing l with
  | nil => rfl
  | cons fill fills ih => rw [List.foldl_cons, ih, id_trade]

@[simp] theorem discarded_foldl_trade (fills : List FillMsg) :
    (fills.foldl trade l).discarded = l.discarded := by
  induction fills generalizing l with
  | nil => rfl
  | cons fill fills ih => rw [List.foldl_cons, ih, discarded_trade]

@[simp] theorem id_close (book : OrderBook) (left : OrderId → Int) :
    (l.close book left).id = l.id := by
  rw [close]
  split <;> rfl

/-- A lifetime that is open after a call was open before it. -/
theorem discarded_of_close {book : OrderBook} {left : OrderId → Int}
    (h : (l.close book left).discarded = none) : l.discarded = none ∧ book.orderOf l.id ≠ none := by
  rw [close] at h
  split at h
  · cases h
  · rename_i hclosed
    exact ⟨h, fun hnone => hclosed ⟨h, hnone⟩⟩

end Lifetime

namespace BookView

variable {v v' : BookView} {i i' m o : Order} {q : Int} {trades : List (Order × Int)} {call : Call}
  {left : OrderId → Int} {l : Lifetime}

/-- The lifetime balances with what remains of the order, or with what is left of one that is
gone. -/
def Tallied (v : BookView) (left : OrderId → Int) (l : Lifetime) : Prop :=
  (∃ o ∈ v.orders, o.id = l.id ∧ l.Balances o.remaining) ∨
    (∀ o ∈ v.orders, o.id ≠ l.id) ∧ l.Balances (left l.id)

/-- A trade leaves the other orders as they are. -/
theorem Trade.other_mem (h : v.Trade i m q v') (hv : v.Sound) (ho : o ∈ v.orders)
    (hm : o.id ≠ m.id) (hi : o.id ≠ i.id) : o ∈ v'.orders := by
  have hmem : o ∈ (v.fill m i q).orders := by
    rw [orders_fill (h.id_ne hv), List.mem_map]
    exact ⟨o, ho, if_neg (not_or.mpr ⟨hm, hi⟩)⟩
  rcases h.after_cases with ⟨-, hdrop⟩ | ⟨-, -, rfl⟩
  · exact hdrop.mem_iff.mpr ⟨hmem, hm⟩
  · exact hmem

/-- A trade keeps the tally when it is entered on both sides. -/
theorem Trade.tallied (h : v.Trade i m q v') (hv : v.Sound) (hleft : left m.id = 0)
    (hopen : l.discarded = none) (htally : v.Tallied left l) (fill : FillMsg)
    (hmaker : fill.makerId = m.id) (htaker : fill.takerId = i.id) (hqty : fill.quantity = q) :
    v'.Tallied left (l.trade fill) := by
  obtain ⟨-, -, hqm⟩ := h.qty_bounds hv
  have hgone : (∀ o ∈ v.orders, o.id ≠ l.id) → ∀ o ∈ v'.orders, o.id ≠ l.id :=
    fun hall => h.all (P := (·.id ≠ l.id)) hv id id hall
  rw [Tallied, Lifetime.id_trade]
  rcases htally with ⟨o, ho, hid, hbal⟩ | ⟨hno, hbal⟩
  · by_cases hm : l.id = m.id
    · obtain rfl := hv.eq_of_id ho h.maker_at.1 (hid.trans hm)
      have hbal' := hbal.trade hopen (Or.inl (hm.trans hmaker.symm))
      rw [hqty] at hbal'
      rcases h.after_cases with ⟨hle, hdrop⟩ | ⟨-, -, rfl⟩
      · refine Or.inr ⟨fun x hx hxid => (hdrop.mem_iff.mp hx).2 (hxid.trans hm), ?_⟩
        rw [hm, hleft, ← sub_eq_zero.mpr (le_antisymm hle hqm)]
        exact hbal'
      · exact Or.inl ⟨o.fill q, h.maker_mem hv, hid, by rwa [Order.remaining_fill]⟩
    · by_cases hi : l.id = i.id
      · obtain rfl := hv.eq_of_id ho h.taker (hid.trans hi)
        have hbal' := hbal.trade hopen (Or.inr (hi.trans htaker.symm))
        rw [hqty] at hbal'
        exact Or.inl ⟨o.fill q, h.taker_mem hv, hid, by rwa [Order.remaining_fill]⟩
      · rw [Lifetime.trade_of_not_named (hmaker ▸ hm) (htaker ▸ hi)]
        exact Or.inl ⟨o, h.other_mem hv ho (hid ▸ hm) (hid ▸ hi), hid, hbal⟩
  · have hm : l.id ≠ fill.makerId := fun heq => hno m h.maker_at.1 (hmaker.symm.trans heq.symm)
    have hi : l.id ≠ fill.takerId := fun heq => hno i h.taker (htaker.symm.trans heq.symm)
    rw [Lifetime.trade_of_not_named hm hi]
    exact Or.inr ⟨hgone hno, hbal⟩

/-- The trades of a loop keep the tally when they are entered one by one. -/
theorem Matched.tallied (h : v.Matched i trades v' i') (hv : v.Sound)
    (hleft : ∀ id ≠ i.id, left id = 0) (hopen : l.discarded = none) (htally : v.Tallied left l)
    (fees : FeeSchedule) :
    ((tradeMsgs fees i.id trades).foldl Lifetime.trade l).discarded = none ∧
      ((tradeMsgs fees i.id trades).foldl Lifetime.trade l).id = l.id ∧
      v'.Tallied left ((tradeMsgs fees i.id trades).foldl Lifetime.trade l) := by
  induction h generalizing l with
  | stop _ => exact ⟨hopen, rfl, htally⟩
  | @step v v' v'' i i' m q trades htrade _ ih =>
    have hnext := htrade.tallied hv (hleft _ (htrade.id_ne hv)) hopen htally
      (fillMsg fees m i.id q) rfl rfl rfl
    obtain ⟨hopen', hid', htally'⟩ := ih (htrade.sound hv) hleft
      ((Lifetime.discarded_trade _).trans hopen) hnext
    exact ⟨hopen', hid'.trans (Lifetime.id_trade _), htally'⟩

/-- The trades of a loop account for what it takes from the incoming order. -/
theorem Matched.remaining_sub (h : v.Matched i trades v' i') :
    i'.remaining = i.remaining - (trades.map Prod.snd).sum := by
  induction h with
  | stop _ => simp
  | step _ _ ih =>
    rw [ih, Order.remaining_fill, List.map_cons, List.sum_cons]
    omega

/-- What is left of the orders that a call takes out of the view. -/
structure Leaves (v : BookView) (call : Call) (trades : List (Order × Int))
    (left : OrderId → Int) : Prop where
  other : ∀ n, call = .newOrder n → ∀ id ≠ n.id, left id = 0
  taker : ∀ n, call = .newOrder n → v.Accepts n → (n.type ≠ .market → v.Crosses n.side n.price) →
    left n.id = n.quantity - (trades.map Prod.snd).sum
  cancelled : ∀ o ∈ v.orders, call = .cancel o.id → left o.id = o.remaining

/-- What a call takes off an order that stays. -/
structure Reduces (v : BookView) (call : Call) (amount : Int) : Prop where
  modify : ∀ o ∈ v.orders, ∀ price qty, call = .modify o.id price qty →
    amount = if 0 < qty ∧ qty ≤ o.remaining then o.remaining - qty else 0
  other : (∀ o ∈ v.orders, ∀ price qty, call ≠ .modify o.id price qty) → amount = 0

/-- The lifetime of an order in the view, or of the order that a call begins. -/
def Begun (v : BookView) (call : Call) (l : Lifetime) : Prop :=
  (∃ o ∈ v.orders, o.id = l.id ∧ l.Balances o.remaining) ∨
    ∃ n, call = .newOrder n ∧ v.Accepts n ∧ l = ⟨n.id, n.quantity, 0, 0, none⟩

private theorem tallied_enter {n : NewOrder} (h : v.Begun (.newOrder n) l) :
    (v.enter n.order).Tallied left l := by
  rcases h with ⟨o, ho, hid, hbal⟩ | ⟨n', heq, -, rfl⟩
  · exact Or.inl ⟨o, List.mem_append_left _ ho, hid, hbal⟩
  · obtain rfl := Call.newOrder.inj heq
    refine Or.inl ⟨n.order, List.mem_append_right _ (List.mem_singleton_self _), n.id_order, ?_⟩
    rw [n.remaining_order, Lifetime.Balances, add_zero, zero_add]

/-- Dropping an order keeps the tally if what is left of it is what remained. -/
theorem Dropped.tallied (h : v.Dropped o v') (hv : v.Sound) (ho : o ∈ v.orders)
    (hleft : left o.id = o.remaining) (htally : v.Tallied left l) : v'.Tallied left l := by
  rcases htally with ⟨x, hx, hid, hbal⟩ | ⟨hno, hbal⟩
  · by_cases hxo : x.id = o.id
    · obtain rfl := hv.eq_of_id hx ho hxo
      refine Or.inr ⟨fun y hy hyid => (h.mem_iff.mp hy).2 (hyid.trans hid.symm), ?_⟩
      rwa [← hid, hleft]
    · exact Or.inl ⟨x, h.mem_iff.mpr ⟨hx, hxo⟩, hid, hbal⟩
  · exact Or.inr ⟨fun x hx => hno x (h.mem_iff.mp hx).1, hbal⟩

/-- A modify that is applied takes off the difference. -/
theorem Modified.tallied {price qty : Int} (h : v.Modified o price qty v') (hv : v.Sound)
    (ho : o ∈ v.orders) (hopen : l.discarded = none)
    (hbal : ∃ x ∈ v.orders, x.id = l.id ∧ l.Balances x.remaining) :
    v'.Tallied left (l.reduceBy o.id (o.remaining - qty)) := by
  obtain ⟨x, hx, hid, hbal⟩ := hbal
  refine Or.inl ?_
  rw [Lifetime.id_reduceBy]
  by_cases hxo : x.id = o.id
  · obtain rfl := hv.eq_of_id hx ho hxo
    have hbal' := hbal.reduceBy hopen hid.symm qty
    cases h with
    | inPlace hprice =>
      refine ⟨x.shrink qty, ?_, hid, by rwa [Order.remaining_shrink]⟩
      exact mem_amend.mpr ⟨x, hx, (if_pos rfl).symm⟩
    | moved hne hdrop =>
      refine ⟨reentry x price qty, List.mem_append_right _ (List.mem_singleton_self _), ?_, ?_⟩
      · rw [id_reentry, hid]
      · rwa [remaining_reentry]
  · have hsame : l.reduceBy o.id (o.remaining - qty) = l :=
      if_neg fun hl => hxo (hid.trans hl.2)
    rw [hsame]
    cases h with
    | inPlace hprice =>
      refine ⟨x, ?_, hid, hbal⟩
      exact mem_amend.mpr ⟨x, hx, (if_neg hxo).symm⟩
    | moved hne hdrop =>
      exact ⟨x, List.mem_append_left _ (hdrop.mem_iff.mpr ⟨hx, hxo⟩), hid, hbal⟩

/-- A call keeps the tally of every lifetime when its fills and its reduction are entered. -/
theorem Effect.tallied (h : v.Effect call trades v') (hv : v.Sound) (hopen : l.discarded = none)
    (hbegun : v.Begun call l) (hleft : v.Leaves call trades left) {amount : Int}
    (hamount : v.Reduces call amount) (fees : FeeSchedule) :
    (((tradeMsgs fees call.id trades).foldl Lifetime.trade l).reduceBy call.id amount).discarded =
        none ∧
      v'.Tallied left
        (((tradeMsgs fees call.id trades).foldl Lifetime.trade l).reduceBy call.id amount) := by
  rw [Lifetime.discarded_reduceBy]
  cases h with
  | @refused n hrefused =>
    rw [hamount.other (by simp), Lifetime.reduceBy_zero]
    refine ⟨hopen, Or.inl (hbegun.resolve_right ?_)⟩
    rintro ⟨n', heq, hacc, -⟩
    exact hrefused (Call.newOrder.inj heq ▸ hacc)
  | @rested n hacc hty hcross =>
    rw [hamount.other (by simp), Lifetime.reduceBy_zero]
    exact ⟨hopen, tallied_enter hbegun⟩
  | @matched n _ w _ i hacc hcross hmatched hsettled =>
    rw [hamount.other (by simp), Lifetime.reduceBy_zero]
    have hsound := hv.enter hacc
    have hmem : n.order ∈ (v.enter n.order).orders := by simp [enter, place]
    obtain ⟨hopen', -, htally⟩ := hmatched.tallied hsound
      (fun id hid => hleft.other n rfl id (n.id_order ▸ hid)) hopen (tallied_enter hbegun) fees
    rw [n.id_order] at hopen' htally
    refine ⟨hopen', ?_⟩
    rw [Settled] at hsettled
    split at hsettled
    · obtain ⟨hsound', hmem'⟩ := hmatched.sound hsound hmem
      have hid : i.id = n.id := by
        obtain ⟨filled, rfl⟩ := hmatched.taker
        rw [Order.id_fill, n.id_order]
      refine hsettled.tallied hsound' hmem' ?_ htally
      rw [hid, hleft.taker n rfl hacc hcross, hmatched.remaining_sub, n.remaining_order]
    · rwa [hsettled]
  | @cancelled o _ ho hdrop =>
    rw [hamount.other (by simp), Lifetime.reduceBy_zero]
    refine ⟨hopen, hdrop.tallied hv ho (hleft.cancelled o ho rfl) (Or.inl (hbegun.resolve_right ?_))⟩
    rintro ⟨n, heq, -⟩
    cases heq
  | @notFound id hno =>
    rw [hamount.other (by simp), Lifetime.reduceBy_zero]
    refine ⟨hopen, Or.inl (hbegun.resolve_right ?_)⟩
    rintro ⟨n, heq, -⟩
    cases heq
  | @modified o price qty _ ho hpos hle hmod =>
    have hin : ∃ x ∈ v.orders, x.id = l.id ∧ l.Balances x.remaining := by
      refine hbegun.resolve_right ?_
      rintro ⟨n, heq, -⟩
      cases heq
    rw [hamount.modify o ho price qty rfl, if_pos ⟨hpos, hle⟩]
    exact ⟨hopen, hmod.tallied hv ho hopen hin⟩
  | @unmodified id price qty hno =>
    have hzero : amount = 0 := by
      by_cases hid : ∃ o ∈ v.orders, o.id = id
      · obtain ⟨o, ho, rfl⟩ := hid
        rw [hamount.modify o ho price qty rfl, if_neg (hno o ho rfl)]
      · refine hamount.other fun o ho price' qty' heq => hid ⟨o, ho, ?_⟩
        exact (Call.modify.inj heq).1.symm
    rw [hzero, Lifetime.reduceBy_zero]
    refine ⟨hopen, Or.inl (hbegun.resolve_right ?_)⟩
    rintro ⟨n, heq, -⟩
    cases heq

end BookView

namespace MatchingEngine

variable {e e' e₀ : MatchingEngine} {v v' : BookView} {trades : List (Order × Int)}
  {ord : HashOrder} {n : NewOrder} {call : Call} {p : Ptr}

/-- Entering an order emits nothing. -/
theorem fills_entered (h : e.entered n = some (p, e₀)) : e₀.fills = e.fills := by
  unfold entered at h
  split at h
  · split at h
    · split at h
      · cases h
      · obtain ⟨-, rfl⟩ := Prod.mk.inj (Option.some.inj h)
        rfl
    · split at h
      · cases h
      · split at h
        · obtain ⟨-, rfl⟩ := Prod.mk.inj (Option.some.inj h)
          rfl
        · cases h
  · cases h

private theorem fills_finish (type : OrderType) (matched : MatchingEngine) :
    (finish type ord p matched).2.fills = matched.fills := by
  rw [finish]
  split <;> rfl

private theorem quantity_tradeMsgs (fees : FeeSchedule) (id : OrderId)
    (trades : List (Order × Int)) :
    (tradeMsgs fees id trades).map (·.quantity) = trades.map Prod.snd := by
  rw [tradeMsgs, List.map_map]
  rfl

/-- What `match_order` returns is the quantity less the emitted fills. -/
theorem remainder_eq (h : e.book.Shows v) (hacc : v.Accepts n)
    (hmay : n.type ≠ .market → v.Crosses n.side n.price)
    (hcall : e.perform ord (.newOrder n) = some e') {fees : FeeSchedule}
    (hfills : e'.fills = e.fills ++ tradeMsgs fees n.id trades) :
    e.remainder ord n = n.quantity - (trades.map Prod.snd).sum := by
  obtain ⟨ps, hrep, rfl, hv⟩ := h
  rcases hrep.entered_cases n with ⟨-, hrests⟩ | ⟨p, e₀, hsome, -, hrep', hview, hget⟩
  · obtain ⟨hty, hcross⟩ := hrests hacc
    exact absurd (hmay hty) hcross
  have hsound : (e₀.book.view (ps ++ [p])).Sound := by
    rw [hview]
    exact hv.enter hacc
  obtain ⟨trades', book, ps', hmatch, -, -, -, hmatched⟩ :=
    hrep'.matchOrder_spec (p := p) hsound (by simp) ord
  have hleft := hmatched.remaining_sub
  rw [hget, n.remaining_order, Order.remaining_unlink] at hleft
  -- both lists of trades are read off the same messages
  have hfills' : e'.fills = e.fills ++ tradeMsgs e₀.fees (e₀.book.pool.get p).id trades' := by
    rw [perform, processNewOrder_of_entered hsome, hmatch] at hcall
    obtain rfl := Option.some.inj hcall
    rw [fills_finish, fills_settle, fills_entered hsome]
  have hsame := congrArg (List.map (·.quantity)) (List.append_cancel_left (hfills.symm.trans hfills'))
  rw [quantity_tradeMsgs, quantity_tradeMsgs] at hsame
  rw [remainder, hsome]
  dsimp only
  rw [hmatch, hsame, ← hleft]
  rfl

/-- The leftovers of a call are what is left of the orders it takes out. -/
theorem leaves_leftover (h : e.book.Shows v) (hcall : e.perform ord call = some e')
    {fees : FeeSchedule} (hfills : e'.fills = e.fills ++ tradeMsgs fees call.id trades) :
    v.Leaves call trades (e.leftover ord call) where
  other n heq id hid := by
    subst heq
    exact if_neg hid
  taker n heq hacc hmay := by
    subst heq
    exact (if_pos rfl).trans (remainder_eq h hacc hmay hcall hfills)
  cancelled o ho heq := by
    subst heq
    have hfound : e.book.orderOf o.id = some o := h.orderOf_eq_some_iff.mpr ⟨ho, rfl⟩
    exact (if_pos rfl).trans (by rw [hfound]; rfl)

private theorem reduces_reduction (h : e.book.Shows v) (ord : HashOrder) (call : Call) :
    v.Reduces call (e.reduction ord call) where
  modify o ho price qty heq := by
    subst heq
    have hfound : e.book.orderOf o.id = some o := h.orderOf_eq_some_iff.mpr ⟨ho, rfl⟩
    obtain ⟨ok, v', hok, -, -, -, -, hiff⟩ := processModify_spec h ord o.id price qty
    rw [reduction, hok, hfound]
    refine if_congr (hiff.trans ⟨?_, fun hq => ⟨o, ho, rfl, hq⟩⟩) rfl rfl
    rintro ⟨x, hx, hid, hq⟩
    rwa [← h.sound.eq_of_id hx ho hid]
  other hno := by
    cases call with
    | newOrder n => rfl
    | cancel id => rfl
    | modify id price qty =>
      obtain ⟨ok, v', hok, -, -, -, -, hiff⟩ := processModify_spec h ord id price qty
      rw [reduction, hok]
      refine if_neg fun htrue => ?_
      obtain ⟨x, hx, rfl, -⟩ := hiff.mp htrue
      exact hno x hx price qty rfl

private theorem leftover_nonneg (h : e.book.Shows v) (ord : HashOrder) (call : Call)
    (id : OrderId) :
    0 ≤ e.leftover ord call id := by
  cases call with
  | newOrder n =>
    rw [leftover]
    split
    · obtain ⟨ps, hrep, rfl, hv⟩ := h
      rcases hrep.entered_cases n with ⟨hnone, -⟩ | ⟨p, e₀, hsome, hacc, hrep', hview, -⟩
      · rw [remainder, hnone]
      · have hsound : (e₀.book.view (ps ++ [p])).Sound := by
          rw [hview]
          exact hv.enter hacc
        obtain ⟨trades, book, ps', hmatch, -, hp, hv', -⟩ :=
          hrep'.matchOrder_spec (p := p) hsound (by simp) ord
        rw [remainder, hsome]
        dsimp only
        rw [hmatch]
        have hnonneg := hv'.nonneg (book.pool.get p).unlink (mem_orders.mpr ⟨p, hp, rfl⟩)
        rwa [Order.remaining_unlink] at hnonneg
    · exact le_rfl
  | cancel id' =>
    rw [leftover]
    split
    · cases hfound : e.book.orderOf id' with
      | none => exact le_rfl
      | some o => exact h.sound.nonneg o (h.orderOf_eq_some_iff.mp hfound).1
    · exact le_rfl
  | modify id' price qty => exact le_rfl

end MatchingEngine

namespace Conserved

variable {e e' : MatchingEngine} {v v' : BookView} {trades : List (Order × Int)} {ord : HashOrder}
  {call : Call} {ledger : Ledger} {l : Lifetime}

/-- The lifetimes after an acceptance are the old ones, or the new one is among them. -/
theorem mem_accept (hshows : e.book.Shows v) (hl : l ∈ ledger.accept e call) :
    l ∈ ledger ∨ ∃ n, call = .newOrder n ∧ v.Accepts n ∧ l = ⟨n.id, n.quantity, 0, 0, none⟩ := by
  cases call with
  | newOrder n =>
    rw [Ledger.accept] at hl
    split at hl
    · rename_i hadmits
      refine (List.mem_append.mp hl).imp_right fun hnew => ⟨n, rfl, hshows.admits_iff.mp hadmits, ?_⟩
      exact List.mem_singleton.mp hnew
    · exact Or.inl hl
  | cancel id => exact Or.inl hl
  | modify id price qty => exact Or.inl hl

private theorem begun (h : Conserved e ledger) (hshows : e.book.Shows v)
    (hl : l ∈ ledger.accept e call)
    (hopen : l.discarded = none) : v.Begun call l := by
  refine (mem_accept hshows hl).imp_left fun hold => ?_
  obtain ⟨o, ho, -, hbal⟩ := h.live l hold hopen
  obtain ⟨hmem, hid⟩ := hshows.orderOf_eq_some_iff.mp ho
  exact ⟨o, hmem, hid, hbal⟩

/-- The ids of the open lifetimes, when some are closed. -/
theorem distinct_map {f : Lifetime → Lifetime} (hid : ∀ l, (f l).id = l.id)
    (hopen : ∀ l, (f l).discarded = none → l.discarded = none)
    (h : ((ledger.filter (·.discarded = none)).map (·.id)).Nodup) :
    (((ledger.map f).filter (·.discarded = none)).map (·.id)).Nodup := by
  refine h.sublist ?_
  clear h
  induction ledger with
  | nil => exact List.Sublist.refl _
  | cons l ledger ih =>
    rw [List.map_cons, List.filter_cons, List.filter_cons]
    by_cases hf : (f l).discarded = none
    · simp only [hf, hopen l hf, decide_true, if_true, List.map_cons, hid]
      exact ih.cons_cons _
    · simp only [hf, decide_false, Bool.false_eq_true, if_false]
      split
      · exact ih.cons _
      · exact ih

private theorem distinct_accept (h : Conserved e ledger) (call : Call) :
    (((ledger.accept e call).filter (·.discarded = none)).map (·.id)).Nodup := by
  cases call with
  | newOrder n =>
    rw [Ledger.accept]
    split
    · rename_i hadmits
      rw [List.filter_append, List.map_append, List.nodup_append]
      refine ⟨h.distinct, by simp, fun x hx y hy hxy => ?_⟩
      obtain ⟨l, hl, rfl⟩ := List.mem_map.mp hx
      obtain ⟨hmem, hopen⟩ := List.mem_filter.mp hl
      obtain ⟨o, ho, -⟩ := h.live l hmem (of_decide_eq_true hopen)
      have hy : y = n.id := by simpa using hy
      rw [hxy, hy, OrderBook.orderOf, hadmits.2.1] at ho
      cases ho
    · exact h.distinct
  | cancel id => exact h.distinct
  | modify id price qty => exact h.distinct

/-- One lifetime over a call. -/
theorem close_cases (h : Conserved e ledger) (hshows : e.book.Shows v)
    (hcall : e.perform ord call = some e') (heffect : v.Effect call trades v')
    (hfills : e'.fills = e.fills ++ tradeMsgs e.fees call.id trades) (hshows' : e'.book.Shows v')
    {l₀ : Lifetime} (hl₀ : l₀ ∈ ledger.accept e call)
    (hl : l = ((e.fillsSince e').foldl Lifetime.trade l₀).reduceBy call.id (e.reduction ord call)) :
    (∀ left, l₀.discarded = some left → l.close e'.book (e.leftover ord call) = l₀) ∧
      (l₀.discarded = none →
        (∃ o, e'.book.orderOf l.id = some o ∧ 0 ≤ o.remaining ∧ l.Balances o.remaining ∧
          l.close e'.book (e.leftover ord call) = l) ∨
        e'.book.orderOf l.id = none ∧ l.Balances (e.leftover ord call l.id) ∧
          l.close e'.book (e.leftover ord call) =
            { l with discarded := some (e.leftover ord call l.id) }) := by
  have hsince : e.fillsSince e' = tradeMsgs e.fees call.id trades := by
    rw [fillsSince, hfills, List.drop_left]
  rw [hsince] at hl
  constructor
  · intro left hended
    rw [hl, Lifetime.foldl_trade_of_ended hended, Lifetime.reduceBy, if_neg (by simp [hended]),
      Lifetime.close, if_neg (by simp [hended])]
  · intro hopen
    obtain ⟨hopen', htally⟩ := heffect.tallied hshows.sound hopen (h.begun hshows hl₀ hopen)
      (leaves_leftover hshows hcall hfills) (reduces_reduction hshows ord call) e.fees
    rw [← hl] at hopen' htally
    rcases htally with ⟨o, ho, hid, hbal⟩ | ⟨hno, hbal⟩
    · have hfound : e'.book.orderOf l.id = some o := hshows'.orderOf_eq_some_iff.mpr ⟨ho, hid⟩
      refine Or.inl ⟨o, hfound, hshows'.sound.nonneg o ho, hbal, ?_⟩
      exact if_neg fun hclosed => by simp [hfound] at hclosed
    · have hnone : e'.book.orderOf l.id = none := hshows'.orderOf_eq_none_iff.mpr hno
      exact Or.inr ⟨hnone, hbal, if_pos ⟨hopen', hnone⟩⟩

/-- Every order of the view after a call was there before or is the new one. -/
theorem known_ids (hshows : e.book.Shows v) (heffect : v.Effect call trades v') :
    ∀ o ∈ v'.orders, (∃ x ∈ v.orders, x.id = o.id) ∨
      ∃ n, call = .newOrder n ∧ v.Accepts n ∧ n.id = o.id := by
  refine heffect.invariant hshows.sound
    (fun o => (∃ x ∈ v.orders, x.id = o.id) ∨ ∃ n, call = .newOrder n ∧ v.Accepts n ∧ n.id = o.id)
    (·.All _) ?_ (fun hchange => hchange.all id id id) fun o ho => Or.inl ⟨o, ho, rfl⟩
  cases call with
  | newOrder n => exact fun hacc => Or.inr ⟨n, rfl, hacc, n.id_order.symm⟩
  | cancel id => trivial
  | modify id price qty =>
    intro o ho _ _ _ _
    exact Or.inl ⟨o, ho, (BookView.id_reentry o price qty).symm⟩

/-- The ledger balances after every call. -/
theorem after (h : Conserved e ledger) (hshows : e.book.Shows v)
    (hcall : e.perform ord call = some e') (heffect : v.Effect call trades v')
    (hfills : e'.fills = e.fills ++ tradeMsgs e.fees call.id trades) (hshows' : e'.book.Shows v') :
    Conserved e' (ledger.after e ord call e') := by
  have hcases := fun {l₀ : Lifetime} (hl₀ : l₀ ∈ ledger.accept e call) =>
    h.close_cases hshows hcall heffect hfills hshows' hl₀ rfl
  refine ⟨fun l hl hopen => ?_, fun l hl left hended => ?_, fun id o ho => ?_, ?_⟩
  · obtain ⟨l₀, hl₀, rfl⟩ := List.mem_map.mp hl
    obtain ⟨hopen', hfound⟩ := Lifetime.discarded_of_close hopen
    rw [Lifetime.discarded_reduceBy, Lifetime.discarded_foldl_trade] at hopen'
    rcases (hcases hl₀).2 hopen' with ⟨o, ho, hnonneg, hbal, hsame⟩ | ⟨hnone, -⟩
    · rw [hsame]
      exact ⟨o, ho, hnonneg, hbal⟩
    · exact absurd hnone hfound
  · obtain ⟨l₀, hl₀, rfl⟩ := List.mem_map.mp hl
    cases hopen : l₀.discarded with
    | some left' =>
      rw [(hcases hl₀).1 left' hopen] at hended ⊢
      rcases mem_accept hshows hl₀ with hold | ⟨n, -, -, rfl⟩
      · exact h.ended l₀ hold left hended
      · cases hopen
    | none =>
      rcases (hcases hl₀).2 hopen with ⟨o, ho, hnonneg, hbal, hsame⟩ | ⟨hnone, hbal, hclosed⟩
      · rw [hsame, Lifetime.discarded_reduceBy, Lifetime.discarded_foldl_trade, hopen] at hended
        cases hended
      · rw [hclosed] at hended ⊢
        obtain rfl := Option.some.inj hended
        exact ⟨leftover_nonneg hshows ord call _, hbal⟩
  · obtain ⟨hmem, rfl⟩ := hshows'.orderOf_eq_some_iff.mp ho
    have hold : ∃ l₀ ∈ ledger.accept e call, l₀.id = o.id ∧ l₀.discarded = none := by
      rcases known_ids hshows heffect o hmem with ⟨x, hx, hid⟩ | ⟨n, rfl, hacc, hid⟩
      · obtain ⟨l₀, hl₀, hid₀, hopen⟩ :=
          h.known x.id x (hshows.orderOf_eq_some_iff.mpr ⟨hx, rfl⟩)
        refine ⟨l₀, ?_, hid₀.trans hid, hopen⟩
        cases call with
        | newOrder n =>
          rw [Ledger.accept]
          split
          · exact List.mem_append_left _ hl₀
          · exact hl₀
        | cancel id => exact hl₀
        | modify id price qty => exact hl₀
      · refine ⟨⟨n.id, n.quantity, 0, 0, none⟩, ?_, hid, rfl⟩
        rw [Ledger.accept, if_pos (hshows.admits_iff.mpr hacc)]
        exact List.mem_append_right _ (List.mem_singleton_self _)
    obtain ⟨l₀, hl₀, hid, hopen⟩ := hold
    refine ⟨_, List.mem_map_of_mem hl₀, by simp [hid], ?_⟩
    rcases (hcases hl₀).2 hopen with ⟨o', ho', -, -, hsame⟩ | ⟨hnone, -⟩
    · rw [hsame, Lifetime.discarded_reduceBy, Lifetime.discarded_foldl_trade, hopen]
    · rw [Lifetime.id_reduceBy, Lifetime.id_foldl_trade, hid, ho] at hnone
      cases hnone
  · refine distinct_map (fun l => by simp) (fun l hl => ?_) (h.distinct_accept call)
    have hopen := (Lifetime.discarded_of_close hl).1
    rwa [Lifetime.discarded_reduceBy, Lifetime.discarded_foldl_trade] at hopen

end Conserved

/-- The makers of a loop rested before it, on the other side and within the limit. -/
theorem BookView.Matched.makers {v w v' : BookView} {i i' : Order} {trades : List (Order × Int)}
    (h : v.Matched i trades v' i') (hv : v.Sound)
    (hold : ∀ o ∈ v.orders, o.id ≠ i.id →
      ∃ x ∈ w.orders, x.id = o.id ∧ x.side = o.side ∧ x.price = o.price) :
    ∀ trade ∈ trades, ∃ x ∈ w.orders, x.id = trade.1.id ∧ x.side.isBid = (!i.side.isBid) ∧
      x.price = trade.1.price ∧
      (i.type = .limit ∨ i.type = .iceberg → ¬ Better i.side.isBid x.price i.price) := by
  induction h with
  | stop _ => simp
  | @step v v' v'' i i' m q trades htrade _ ih =>
    intro trade hmem
    rcases List.mem_cons.mp hmem with rfl | hmem
    · obtain ⟨x, hx, hid, hside, hprice⟩ := hold m htrade.maker_at.1 (htrade.id_ne hv)
      refine ⟨x, hx, hid, hside ▸ htrade.maker_at.2.1, hprice, fun hlimited => ?_⟩
      rw [hprice, ← better_not]
      exact htrade.within hlimited
    · refine ih (htrade.sound hv) ?_ trade hmem
      exact htrade.all (P := fun o => o.id ≠ i.id →
        ∃ x ∈ w.orders, x.id = o.id ∧ x.side = o.side ∧ x.price = o.price) hv id id hold

/-- The trades of a call honour the prices. -/
theorem BookView.Effect.honoured {e : MatchingEngine} {v v' : BookView} {call : Call}
    {trades : List (Order × Int)} (hshows : e.book.Shows v) (h : v.Effect call trades v')
    (fees : FeeSchedule) : ∀ fill ∈ tradeMsgs fees call.id trades, Honoured e call fill := by
  intro fill hfill
  obtain ⟨trade, htrade, rfl⟩ := List.mem_map.mp hfill
  cases h with
  | @matched n _ w _ i hacc hcross hmatched hsettled =>
    obtain ⟨x, hx, hid, hside, hprice, hlimit⟩ := hmatched.makers (w := v) (hshows.sound.enter hacc)
      (fun o ho hne => by
        rcases List.mem_append.mp ho with ho | ho
        · exact ⟨o, ho, rfl, rfl, rfl⟩
        · exact absurd (congrArg Order.id (List.mem_singleton.mp ho)) hne) trade htrade
    rw [n.side_order] at hside hlimit
    refine ⟨n, x, rfl, rfl, hshows.orderOf_eq_some_iff.mpr ⟨hx, hid⟩, hside, hprice.symm,
      fun hlimited => ?_⟩
    have hmarket : n.type ≠ .market := by
      rintro hty
      simp [hty] at hlimited
    have hbetter := hlimit (n.limited_order hmarket)
    rw [n.price_order hmarket] at hbetter
    have hfill : (fillMsg fees trade.1 (Call.newOrder n).id trade.2).price = x.price := hprice.symm
    rw [hfill]
    cases hbid : n.side.isBid with
    | true =>
      rw [hbid] at hbetter
      simpa [Better] using hbetter
    | false =>
      rw [hbid] at hbetter
      simpa [Better] using hbetter
  | refused _ => cases htrade
  | rested _ _ _ => cases htrade
  | cancelled _ _ => cases htrade
  | notFound _ => cases htrade
  | modified _ _ _ _ => cases htrade
  | unmodified _ => cases htrade

/-- A run from a state with a balanced ledger is audited. -/
theorem OrderBook.Shows.audited {e : MatchingEngine} {v : BookView} {ledger : Ledger}
    (hshows : e.book.Shows v) (h : Conserved e ledger) (calls : List (HashOrder × Call)) :
    Audited e ledger calls := by
  induction calls generalizing e v ledger with
  | nil => exact h
  | cons c calls ih =>
    obtain ⟨ord, call⟩ := c
    obtain ⟨e', trades, v', hcall, hshows', heffect, -, hfills⟩ := perform_spec hshows ord call
    exact ⟨h, e', hcall, ⟨_, hfills, heffect.honoured hshows e.fees⟩,
      ih hshows' (h.after hshows hcall heffect hfills hshows')⟩

/-- In every run of new orders of any type, cancels and modifies, quantity is conserved over
every lifetime of every id, remaining quantities are never negative and prices are honoured. -/
theorem run_audited (fees : FeeSchedule) (calls : List (HashOrder × Call)) :
    Audited (MatchingEngine.init fees) [] calls := by
  have hempty : Conserved (MatchingEngine.init fees) [] := by
    refine ⟨fun l hl => ?_, fun l hl => ?_, fun id o ho => ?_, List.nodup_nil⟩
    · cases hl
    · cases hl
    · exact absurd (OrderBook.shows_init.orderOf_eq_some_iff.mp ho).1 List.not_mem_nil
  exact OrderBook.shows_init.audited hempty calls

end LiquidityArena

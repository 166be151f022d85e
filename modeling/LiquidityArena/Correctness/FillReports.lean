import LiquidityArena.View.Threads

/-!
# Which trades the clients hear about

The engine thread turns a command into a reject or a snapshot and never into a fill, so
the clients hear about all trades exactly as long as there are none.
-/

namespace LiquidityArena

open OrderBook MatchingEngine

/-- The fills among the messages to a client. -/
def fillsOf (reports : List (Tagged Report)) : List FillMsg :=
  reports.filterMap fun report =>
    match report.item with
    | .fill msg => some msg
    | _ => none

/-- All events have been consumed. -/
def System.Consumed (s : System) : Prop := s.events = [] ∧ s.pending = none

instance (s : System) : Decidable s.Consumed := inferInstanceAs (Decidable (_ ∧ _))

/-- Between two states a client that stays connected is sent the fills that were executed,
in their order, and no snapshot is sent before a fill that it reflects. -/
structure System.TradesReported (s₁ s : System) : Prop where
  reported : s₁.Consumed → s.Consumed → ∀ c₁ ∈ s₁.clients, ∀ c ∈ s.clients, c.conn = c₁.conn →
    s.engine.fills = s₁.engine.fills ++ fillsOf (c.sendBuffer.drop c₁.sendBuffer.length)
  ordered : ∀ c ∈ s.clients, c.sendBuffer.Pairwise fun x y =>
    (∃ msg, x.item = .bookUpdate msg) → (∃ msg, y.item = .fill msg) → x.request < y.request

/-- The book takes the order, which finds an order to trade with. -/
def OrderBook.Trades (b : OrderBook) (n : NewOrder) : Prop :=
  b.Admits n ∧ (n.type = .market ∨ MatchingEngine.Crosses b n.side n.price) ∧
    b.bestOrder (!n.side.isBid) ≠ none

instance (b : OrderBook) (n : NewOrder) : Decidable (b.Trades n) :=
  inferInstanceAs (Decidable (_ ∧ _))

/-- The request is a new order that trades. -/
def Request.Trades (b : OrderBook) : Request → Prop
  | .newOrder msg => b.Trades msg.args
  | .cancelOrder _ => False
  | .modifyOrder _ => False

instance (b : OrderBook) : DecidablePred (Request.Trades b)
  | .newOrder msg => inferInstanceAs (Decidable (b.Trades msg.args))
  | .cancelOrder _ => isFalse id
  | .modifyOrder _ => isFalse id

/-- The requirement on the steps: no new order trades when its turn comes. -/
def FindsNoTrade (s : System) : Action → Prop
  | .process _ => ∀ cmd ∈ s.commands.head?, ¬ cmd.item.payload.Trades s.engine.book
  | _ => True

instance (s : System) : DecidablePred (FindsNoTrade s)
  | .accept _ => isTrue trivial
  | .remove _ => isTrue trivial
  | .message _ _ _ => isTrue trivial
  | .consume => isTrue trivial
  | .process _ => inferInstanceAs (Decidable (∀ cmd ∈ s.commands.head?, _))
  | .publish => isTrue trivial

/-- A front order at the cached best price, read off the view. -/
theorem OrderBook.Shows.bestOrder_ne_none_iff {b : OrderBook} {v : BookView} (h : b.Shows v)
    (s : Bool) : b.bestOrder s ≠ none ↔ v.best s ≠ invalidPrice ∧ v.level s (v.best s) ≠ [] := by
  obtain ⟨ps, hrep, rfl, -⟩ := h
  by_cases hinv : b.best s = invalidPrice
  · simp only [bestOrder, if_pos hinv, ne_eq, not_true_eq_false, false_iff, not_and]
    exact fun hne => absurd hinv hne
  · rw [hrep.bestOrder_eq hinv, ne_eq, List.head?_eq_none_iff, ← level_view_eq_nil_iff]
    exact ⟨fun hne => ⟨hinv, hne⟩, fun hne => hne.2⟩

namespace BookView

variable {v v' : BookView} {n : NewOrder} {trades : List (Order × Int)}

/-- An entered order that may be matched stops at once when there is nothing to trade with. -/
theorem stops_enter_iff (hacc : v.Accepts n) (hcross : n.type ≠ .market → v.Crosses n.side n.price) :
    (v.enter n.order).Stops n.order ↔
      ¬ (v.best (!n.side.isBid) ≠ invalidPrice ∧
        v.level (!n.side.isBid) (v.best (!n.side.isBid)) ≠ []) := by
  have hbest := best_enter_other v n.order
  have hlevel := level_enter_other v n.order (v.best (!n.side.isBid))
  rw [NewOrder.side_order] at hbest hlevel
  rw [Stops, NewOrder.side_order, NewOrder.remaining_order, hbest, hlevel]
  have hqty := hacc.valid.quantity_pos
  have hcompatible : ¬ Incompatible n.order (v.best (!n.side.isBid)) := by
    by_cases hmarket : n.type = .market
    · have htype := n.type_order_eq_market.mpr hmarket
      simp [Incompatible, htype]
    · rw [incompatible_iff (n.limited_order hmarket), n.price_order hmarket, NewOrder.side_order]
      exact (hcross hmarket).2.2
  simp only [hqty.not_ge, hcompatible, false_or, not_and_or, not_not]

/-- A new order trades exactly when it enters, may be matched and finds an order. -/
theorem Effect.trades_eq_nil_iff (h : v.Effect (.newOrder n) trades v') :
    trades = [] ↔ ¬ (v.Accepts n ∧ (n.type = .market ∨ v.Crosses n.side n.price) ∧
      v.best (!n.side.isBid) ≠ invalidPrice ∧
      v.level (!n.side.isBid) (v.best (!n.side.isBid)) ≠ []) := by
  cases h with
  | refused hrefused => exact iff_of_true rfl fun hall => hrefused hall.1
  | rested hacc hmarket hcross =>
    exact iff_of_true rfl fun hall => hall.2.1.elim hmarket hcross
  | matched hacc hcross hmatched hsettled =>
    have hmay : n.type = .market ∨ v.Crosses n.side n.price := by
      by_cases hmarket : n.type = .market
      · exact Or.inl hmarket
      · exact Or.inr (hcross hmarket)
    have hstops := stops_enter_iff hacc hcross
    cases hmatched with
    | stop hstop =>
      exact iff_of_true rfl fun hall => hstops.mp hstop hall.2.2
    | step htrade _ =>
      refine iff_of_false (List.cons_ne_nil _ _) fun hnone => ?_
      have hstop := hstops.mpr fun hall => hnone ⟨hacc, hmay, hall⟩
      rcases hstop with hrem | hinv | hinc | hnil
      · exact absurd htrade.unfilled hrem.not_gt
      · exact htrade.valid hinv
      · exact htrade.compatible hinc
      · have hmaker := htrade.maker
        rw [hnil] at hmaker
        cases hmaker

/-- Cancels and modifies do not trade. -/
theorem Effect.trades_of_not_newOrder {call : Call} (h : v.Effect call trades v')
    (hcall : ∀ n, call ≠ .newOrder n) : trades = [] := by
  cases h with
  | matched hacc hcross hmatched hsettled => exact absurd rfl (hcall _)
  | refused hrefused => rfl
  | rested hacc hmarket hcross => rfl
  | cancelled ho hdrop => rfl
  | notFound hno => rfl
  | modified ho hpos hle hmod => rfl
  | unmodified hno => rfl

/-- A command trades exactly if it is a new order that trades. -/
theorem Effect.trades_eq_nil_iff_request {b : OrderBook} {request : Request} (hshows : b.Shows v)
    (h : v.Effect request.call trades v') : trades = [] ↔ ¬ request.Trades b := by
  cases request with
  | newOrder msg =>
    rw [h.trades_eq_nil_iff, Request.Trades, OrderBook.Trades, hshows.admits_iff,
      hshows.crosses_iff, hshows.bestOrder_ne_none_iff]
  | cancelOrder msg => exact iff_of_true (h.trades_of_not_newOrder fun n hn => by cases hn) id
  | modifyOrder msg => exact iff_of_true (h.trades_of_not_newOrder fun n hn => by cases hn) id

end BookView

namespace System

variable {s s' s₁ : System} {a : Action} {actions : List Action}

/-- The engine's fills after a step: they are the same exactly if no new order traded. -/
theorem fills_step (h : ∃ v, s.engine.book.Shows v) (hs : s.step a = some s') :
    (∃ v, s'.engine.book.Shows v) ∧ ∃ fills, s'.engine.fills = s.engine.fills ++ fills ∧
      (fills = [] ↔ FindsNoTrade s a) := by
  have hsame : s'.engine = s.engine → FindsNoTrade s a → (∃ v, s'.engine.book.Shows v) ∧
      ∃ fills, s'.engine.fills = s.engine.fills ++ fills ∧ (fills = [] ↔ FindsNoTrade s a) :=
    fun heq hok => ⟨heq ▸ h, [], heq ▸ (List.append_nil _).symm, iff_of_true rfl hok⟩
  cases a with
  | accept sock =>
    obtain rfl := Option.some.inj hs
    exact hsame rfl trivial
  | remove idx =>
    obtain ⟨-, rfl⟩ := step_remove hs
    exact hsame rfl trivial
  | message idx type payload =>
    obtain ⟨client, -, ⟨id, reason, -, rfl⟩ | ⟨request, -, rfl⟩ | ⟨-, rfl⟩⟩ := step_message hs
    · exact hsame rfl trivial
    · exact hsame rfl trivial
    · exact hsame rfl trivial
  | consume =>
    obtain ⟨event, events, -, rfl⟩ := step_consume hs
    exact hsame rfl trivial
  | publish =>
    obtain ⟨event, -, -, rfl⟩ := step_publish hs
    exact hsame rfl trivial
  | process ord =>
    obtain ⟨-, cmd, commands, e', event, hcommands, hprocess, rfl⟩ := step_process hs
    obtain ⟨v, hshows⟩ := h
    obtain ⟨e'', trades, v', hcall, -, hshows', heffect, -, hfills⟩ :=
      processClientCommand_spec hshows ord cmd.item
    obtain ⟨rfl, -⟩ := Prod.mk.inj (Option.some.inj (hprocess.symm.trans hcall))
    refine ⟨⟨v', hshows'⟩, _, hfills, ?_⟩
    rw [tradeMsgs, List.map_eq_nil_iff, heffect.trades_eq_nil_iff_request hshows, FindsNoTrade,
      hcommands, List.head?_cons]
    simp only [Option.mem_some_iff, forall_eq']

/-- The engine's fills after a run: they are the same exactly if no new order traded. -/
theorem fills_run (h : ∃ v, s.engine.book.Shows v) (hrun : s.run actions = some s') :
    (∃ v, s'.engine.book.Shows v) ∧ ∃ fills, s'.engine.fills = s.engine.fills ++ fills ∧
      (fills = [] ↔ Machine.Meets System.step FindsNoTrade s actions) := by
  induction actions generalizing s with
  | nil =>
    obtain rfl := Option.some.inj hrun
    exact ⟨h, [], (List.append_nil _).symm, iff_of_true rfl trivial⟩
  | cons a actions ih =>
    obtain ⟨s₁, hfirst, hrest⟩ := Option.bind_eq_some_iff.mp hrun
    obtain ⟨h₁, fills, hfills, hiff⟩ := fills_step h hfirst
    obtain ⟨h', fills', hfills', hiff'⟩ := ih h₁ hrest
    refine ⟨h', fills ++ fills', by rw [hfills', hfills, List.append_assoc], ?_⟩
    rw [List.append_eq_nil_iff, hiff, hiff', Machine.Meets]
    refine and_congr_right fun _ => ⟨fun hmeets s₂ hs₂ => ?_, fun hmeets => hmeets s₁ hfirst⟩
    obtain rfl := Option.some.inj (hfirst.symm.trans hs₂)
    exact hmeets

/-- No fill is on its way to a client. -/
structure Silent (s : System) : Prop where
  buffers : ∀ c ∈ s.clients, ∀ report ∈ c.sendBuffer, ∀ msg, report.item ≠ .fill msg

private theorem silent_init (fees : FeeSchedule) : (init fees).Silent := ⟨fun c hc => by cases hc⟩

private theorem Silent.sendReject (h : s.Silent) (k : Nat) (id : OrderId) (reason : RejectReason)
    (request : Nat) : ∀ c ∈ TcpServer.sendReject s.clients k id reason request,
      ∀ report ∈ c.sendBuffer, ∀ msg, report.item ≠ .fill msg := by
  intro c hc report hreport
  obtain ⟨i, c₀, hc₀, -, hreports⟩ := TcpServer.mem_sendReject hc
  rcases hreports report hreport with hold | ⟨-, rfl⟩
  · exact h.buffers c₀ (List.mem_of_getElem? hc₀) report hold
  · exact fun msg hmsg => by cases hmsg

/-- No step sends a fill. -/
theorem Silent.step (h : s.Silent) (hs : s.step a = some s') : s'.Silent := by
  cases a with
  | accept sock =>
    obtain rfl := Option.some.inj hs
    refine ⟨fun c hc => ?_⟩
    dsimp only [TcpServer.acceptClient] at hc
    split_ifs at hc
    · exact h.buffers c hc
    · rcases List.mem_append.mp hc with hc | hc
      · exact h.buffers c hc
      · rw [List.mem_singleton.mp hc]
        exact fun report hreport => by cases hreport
  | remove idx =>
    obtain ⟨-, rfl⟩ := step_remove hs
    exact ⟨fun c hc => h.buffers c ((List.eraseIdx_sublist _ _).subset hc)⟩
  | message idx type payload =>
    obtain ⟨client, -, ⟨id, reason, -, rfl⟩ | ⟨request, -, rfl⟩ | ⟨-, rfl⟩⟩ := step_message hs
    · exact ⟨h.sendReject idx id reason _⟩
    · exact ⟨h.buffers⟩
    · exact ⟨h.buffers⟩
  | consume =>
    obtain ⟨event, events, -, rfl⟩ := step_consume hs
    refine ⟨fun c hc report hreport => ?_⟩
    dsimp only [TcpServer.consumeEvent] at hc
    split at hc
    · obtain ⟨c₀, hc₀, rfl⟩ := List.mem_map.mp hc
      rcases ClientConn.mem_send hreport with hold | rfl
      · exact h.buffers c₀ hc₀ report hold
      · exact fun msg hmsg => by cases hmsg
    · exact h.sendReject _ _ _ _ c hc report hreport
    · exact h.buffers c hc report hreport
  | process ord =>
    obtain ⟨-, cmd, commands, e', event, -, -, rfl⟩ := step_process hs
    exact ⟨h.buffers⟩
  | publish =>
    obtain ⟨event, -, -, rfl⟩ := step_publish hs
    exact ⟨h.buffers⟩

private theorem Silent.fillsOf_drop (h : s.Silent) {c : ClientConn} (hc : c ∈ s.clients) (k : Nat) :
    fillsOf (c.sendBuffer.drop k) = [] := by
  refine List.filterMap_eq_nil_iff.mpr fun report hreport => ?_
  have hno := h.buffers c hc report (List.mem_of_mem_drop hreport)
  cases hitem : report.item with
  | fill msg => exact absurd hitem (hno msg)
  | reject msg => rfl
  | bookUpdate msg => rfl

end System

/-- From a state that the two threads reach to a later one, in any interleaving, the trades are
reported to the clients that stay connected exactly if no processed order traded. -/
theorem run_tradesReported_iff (fees : FeeSchedule) (before actions : List Action) {s₁ s : System}
    (hbefore : (System.init fees).run before = some s₁) (hrun : s₁.run actions = some s)
    (hconsumed₁ : s₁.Consumed) (hconsumed : s.Consumed)
    (hstays : ∃ c₁ ∈ s₁.clients, ∃ c ∈ s.clients, c.conn = c₁.conn) :
    s₁.TradesReported s ↔ Machine.Meets System.step FindsNoTrade s₁ actions := by
  have hsilent₁ := Machine.run_invariant System.Silent System.Silent.step
    (System.silent_init fees) hbefore
  have hsilent := Machine.run_invariant System.Silent System.Silent.step hsilent₁ hrun
  obtain ⟨hshows₁, -⟩ := System.fills_run ⟨_, OrderBook.shows_init⟩ hbefore
  obtain ⟨-, fills, hfills, hiff⟩ := System.fills_run hshows₁ hrun
  rw [← hiff]
  constructor
  · intro hreported
    obtain ⟨c₁, hc₁, c, hc, hconn⟩ := hstays
    have hall := hreported.reported hconsumed₁ hconsumed c₁ hc₁ c hc hconn
    rw [hfills, hsilent.fillsOf_drop hc] at hall
    exact List.append_cancel_left hall
  · rintro rfl
    refine ⟨fun _ _ c₁ hc₁ c hc _ => ?_, fun c hc => ?_⟩
    · rw [hfills, hsilent.fillsOf_drop hc]
    · refine List.Pairwise.imp_of_mem (fun hx hy _ _ ⟨msg, hmsg⟩ => ?_)
        (List.pairwise_of_forall (R := fun _ _ => True) fun _ _ => trivial)
      exact absurd hmsg (hsilent.buffers c hc _ hy msg)

/-- A bid that rests and a bid that is queued behind it. -/
theorem run_tradesReported_iff_no_trade :
    ∃ s₁ s, (System.init {}).run [.accept 3] = some s₁ ∧
      s₁.run [.message 0 .newOrder (newOrderBytes 1 0 0 100 5), .process HashOrder.recent,
        .message 0 .newOrder (newOrderBytes 2 0 0 100 5), .publish, .process HashOrder.recent,
        .publish, .consume, .consume] = some s ∧ s₁.TradesReported s := by
  refine ⟨Option.get _ (by decide +kernel), Option.get _ (by decide +kernel),
    (Option.some_get _).symm, (Option.some_get _).symm, ?_⟩
  refine (run_tradesReported_iff {} _ _ (Option.some_get _).symm (Option.some_get _).symm
    (by decide +kernel) (by decide +kernel) ?_).mpr (by decide +kernel)
  exact ⟨_, List.head_mem (by decide +kernel), _, List.head_mem (by decide +kernel),
    by decide +kernel⟩

/-- An ask trades with a resting bid and the only client hears of two snapshots. -/
theorem trade_goes_unreported :
    ∃ s₁ s, (System.init {}).run [.accept 3] = some s₁ ∧
      s₁.run [.message 0 .newOrder (newOrderBytes 1 0 0 100 5), .process HashOrder.recent,
        .message 0 .newOrder (newOrderBytes 2 1 0 100 5), .publish, .process HashOrder.recent,
        .publish, .consume, .consume] = some s ∧ ¬ s₁.TradesReported s := by
  refine ⟨Option.get _ (by decide +kernel), Option.get _ (by decide +kernel),
    (Option.some_get _).symm, (Option.some_get _).symm, fun h => ?_⟩
  exact absurd (h.reported (by decide +kernel) (by decide +kernel) _
    (List.head_mem (by decide +kernel)) _ (List.head_mem (by decide +kernel)) (by decide +kernel))
    (by decide +kernel)

end LiquidityArena

import LiquidityArena.View.Threads

/-!
# Which bytes can put an ill-formed order into the book

Neither thread looks at the side byte of a new order, and prices are checked for the
named order types only. As long as the orders that pass the checks name a side, and a
named type or a positive price, every order in the book is well formed, whatever else
the clients send and however the two threads interleave.
-/

namespace LiquidityArena

open OrderBook

/-- Every resting order names its side, is queued on that side at its positive price and has
something left; the cached best prices are exact. -/
structure OrderBook.WellFormed (b : OrderBook) : Prop where
  orders : ∀ s t, ∀ o ∈ b.queueOf s t,
    o.side = Side.ofBid s ∧ o.price = t ∧ 0 < o.price ∧ 0 < o.remaining
  queued : ∀ id o, b.orderOf id = some o → o ∈ b.queueOf o.side.isBid o.price
  empty : ∀ s, b.best s = invalidPrice ↔ (b.levels s).entries = []
  best : ∀ s, b.best s ≠ invalidPrice → ((b.levels s).lookup (b.best s)).isSome = true

/-- The message is not a new order with the type byte of a market order. -/
def Action.NotMarket : Action → Prop
  | .message _ .newOrder payload => (NewOrderMsg.deserialize payload).type ≠ .market
  | _ => True

/-- A new order that passes the checks of the server names a side, and a type that is checked
for a positive price or such a price. -/
def NamesItsFields (s : System) : Action → Prop
  | .message _ type payload => ∀ msg,
      TcpServer.screen s.engine.hasOrder type payload = .forward (.newOrder msg) →
      msg.side.Named ∧ (msg.type = .limit ∨ msg.type = .iceberg ∨ 0 < msg.price)
  | _ => True

/-- A request that leaves a well-formed book well formed. -/
def Request.WellFormed : Request → Prop
  | .newOrder msg => msg.side.Named ∧ msg.type ≠ .market ∧ (msg.args.Valid → 0 < msg.price)
  | .cancelOrder _ => True
  | .modifyOrder msg => 0 < msg.newPrice

private theorem Request.WellFormed.proper {request : Request} (h : request.WellFormed) :
    request.call.Proper := by
  cases request with
  | newOrder msg => exact ⟨h.1, h.2.1, fun hvalid => invalidPrice_lt_of_pos (h.2.2 hvalid)⟩
  | cancelOrder msg => trivial
  | modifyOrder msg => exact invalidPrice_lt_of_pos h

/-- Well-formed requests enter orders with positive prices only. -/
theorem Request.WellFormed.enters {request : Request} (h : request.WellFormed) (v : BookView) :
    v.Enters (0 < ·.price) request.call := by
  cases request with
  | newOrder msg =>
    intro hacc
    rw [NewOrder.price_order _ h.2.1]
    exact h.2.2 hacc.valid
  | cancelOrder msg => trivial
  | modifyOrder msg =>
    intro o _ _ _ _ _
    rw [BookView.price_reentry]
    exact h

/-- A regular book with positive prices is well formed. -/
theorem OrderBook.Shows.wellFormed {b : OrderBook} {v : BookView} (h : b.Shows v) (hv : v.Regular)
    (hprices : v.All (0 < ·.price)) : b.WellFormed where
  orders s t o ho := by
    rw [h.queueOf, BookView.mem_level] at ho
    obtain ⟨ho, rfl, rfl⟩ := ho
    exact ⟨(hv.sides o ho).eq_ofBid, rfl, hprices o ho, hv.live o ho⟩
  queued id o ho := by
    rw [h.queueOf, BookView.mem_level]
    exact ⟨(h.orderOf_eq_some_iff.mp ho).1, rfl, rfl⟩
  empty s := by
    rw [h.best, h.entries_eq_nil_iff]
    exact BookView.best_eq_invalid_iff (hv.anchored s) (hv.topped s)
  best s hne := by
    rw [AList.lookup_isSome, AList.mem_keys, h.mem_keys_iff, BookView.level_ne_nil_iff, h.best]
    rw [h.best] at hne
    exact (hv.anchored s).resolve_left hne

/-- The book is regular with positive prices, and every queued command keeps it so. -/
structure System.Clean (s : System) : Prop where
  book : ∃ v, s.engine.book.Shows v ∧ v.Regular ∧ v.All (0 < ·.price)
  commands : ∀ cmd ∈ s.commands, cmd.item.payload.WellFormed

namespace System

variable {s s' : System} {a : Action}

private theorem clean_init (fees : FeeSchedule) : (init fees).Clean :=
  ⟨⟨_, OrderBook.shows_init, BookView.regular_empty, by simp [BookView.All]⟩, by simp [init]⟩

/-- A request that is forwarded under the requirement is well formed. -/
theorem wellFormed_of_forward {idx : Nat} {type : MsgType} {payload : List UInt8}
    (hmarket : (Action.message idx type payload).NotMarket)
    (hok : NamesItsFields s (.message idx type payload)) {request : Request}
    (h : TcpServer.screen s.engine.hasOrder type payload = .forward request) :
    request.WellFormed := by
  obtain ⟨htype, hscreened⟩ := TcpServer.screened_of_forward h
  cases request with
  | newOrder msg =>
    obtain rfl : type = .newOrder := htype
    have hmarket : (NewOrderMsg.deserialize payload).type ≠ .market := hmarket
    rw [← hscreened.1] at hmarket
    obtain ⟨hside, hnamed⟩ := hok msg h
    refine ⟨hside, hmarket, fun hvalid => ?_⟩
    rcases hnamed with hty | hty | hpos
    · exact hvalid.price_pos (Or.inl hty)
    · exact hvalid.price_pos (Or.inr hty)
    · exact hpos
  | cancelOrder msg => trivial
  | modifyOrder msg => exact hscreened.2.2

private theorem Clean.step (h : s.Clean) (hmarket : a.NotMarket) (hok : NamesItsFields s a)
    (hs : s.step a = some s') : s'.Clean := by
  cases a with
  | accept sock =>
    obtain rfl := Option.some.inj hs
    exact ⟨h.book, h.commands⟩
  | remove idx =>
    obtain ⟨-, rfl⟩ := step_remove hs
    exact ⟨h.book, h.commands⟩
  | message idx type payload =>
    obtain ⟨client, -, ⟨id, reason, -, rfl⟩ | ⟨request, hscreen, rfl⟩ | ⟨-, rfl⟩⟩ := step_message hs
    · exact ⟨h.book, h.commands⟩
    · refine ⟨h.book, fun cmd hcmd => ?_⟩
      rcases mem_push hcmd with hcmd | rfl
      · exact h.commands cmd hcmd
      · exact wellFormed_of_forward hmarket hok hscreen
    · exact ⟨h.book, h.commands⟩
  | consume =>
    obtain ⟨event, events, -, rfl⟩ := step_consume hs
    exact ⟨h.book, h.commands⟩
  | process ord =>
    obtain ⟨-, cmd, commands, e', event, hcommands, hprocess, rfl⟩ := step_process hs
    have hcmd := h.commands cmd (by simp [hcommands])
    obtain ⟨v, hshows, hv, hprices⟩ := h.book
    obtain ⟨e'', trades, v', hcall, -, hshows', heffect, -⟩ :=
      MatchingEngine.processClientCommand_spec hshows ord cmd.item
    obtain ⟨rfl, -⟩ := Prod.mk.inj (Option.some.inj (hprocess.symm.trans hcall))
    refine ⟨⟨v', hshows', heffect.regular hcmd.proper hv, ?_⟩, fun c hc => ?_⟩
    · exact heffect.invariant hv.sound (0 < ·.price) (·.All (0 < ·.price)) (hcmd.enters v)
        (fun hchange => hchange.all id id id) hprices
    · exact h.commands c (by simp [hcommands, hc])
  | publish =>
    obtain ⟨event, -, -, rfl⟩ := step_publish hs
    exact ⟨h.book, h.commands⟩

end System

/-- In every state the two threads reach with messages of arbitrary bytes other than market
orders, the book is well formed if every new order that passes the server's checks names a
side, and a checked type or a positive price. -/
theorem run_wellFormed (fees : FeeSchedule) (actions : List Action) {s : System}
    (hmarket : ∀ a ∈ actions, a.NotMarket)
    (hok : Machine.Meets System.step NamesItsFields (System.init fees) actions)
    (hrun : (System.init fees).run actions = some s) : s.engine.book.WellFormed := by
  have hmeets := (Machine.meets_of_forall System.step hmarket (System.init fees)).and hok
  have hclean := hmeets.invariant System.Clean (fun h hok hs => h.step hok.1 hok.2 hs)
    (System.clean_init fees) hrun
  obtain ⟨v, hshows, hv, hprices⟩ := hclean.book
  exact hshows.wellFormed hv hprices

/-- A bid of a type that no enumerator names is kept as a limit order at its positive price;
a message that is too short and one of no known type change nothing. -/
theorem run_wellFormed_unnamed_type :
    ∃ s, (System.init {}).run [.accept 3, .message 0 .newOrder (newOrderBytes 1 0 9 100 5),
        .message 0 .newOrder [7, 7], .message 0 (.raw 77) [], .process HashOrder.recent] = some s ∧
      s.engine.book.WellFormed := by
  refine ⟨_, rfl, run_wellFormed {} [.accept 3, .message 0 .newOrder (newOrderBytes 1 0 9 100 5),
    .message 0 .newOrder [7, 7], .message 0 (.raw 77) [], .process HashOrder.recent]
    ?_ ?_ rfl⟩
  · intro a ha
    fin_cases ha <;> simp only [Action.NotMarket] <;> decide
  · refine ⟨trivial, fun s hs => ?_⟩
    obtain rfl := Option.some.inj hs
    refine ⟨fun msg hmsg => ?_, fun s hs => ?_⟩
    · obtain rfl := Request.newOrder.inj (TcpServer.Screening.forward.inj hmsg)
      decide
    obtain rfl := Option.some.inj hs
    refine ⟨fun msg hmsg => ?_, fun s hs => ?_⟩
    · cases hmsg
    obtain rfl := Option.some.inj hs
    refine ⟨fun msg hmsg => ?_, fun s hs => ⟨trivial, fun _ _ => trivial⟩⟩
    cases hmsg

/-- An order with side byte 7 rests among the asks. -/
theorem unnamed_side_rests :
    (∀ a ∈ [Action.accept 3, .message 0 .newOrder (newOrderBytes 1 7 0 100 5),
        .process HashOrder.recent], a.NotMarket) ∧
      ∃ s, (System.init {}).run [.accept 3, .message 0 .newOrder (newOrderBytes 1 7 0 100 5),
        .process HashOrder.recent] = some s ∧ ¬ s.engine.book.WellFormed := by
  refine ⟨fun a ha => ?_, _, rfl, fun hwf => ?_⟩
  · fin_cases ha
    · trivial
    · simp only [Action.NotMarket]
      decide
    · trivial
  exact absurd (hwf.orders false 100 _ (List.mem_singleton_self _)).1 (by decide)

end LiquidityArena

import LiquidityArena.Simulation.Simulator
import LiquidityArena.Correctness.AgentLedger

/-!
# The market maker's quotes do not accumulate

The agent hands its stale quotes to the simulator and forgets them, and the simulator
cancels them before it sends the new ones. Between two turns nothing is pending, so every
quote ever sent is still active, was cancelled after it was sent, or has been filled.
-/

namespace LiquidityArena

namespace Simulator

/-- Every order sent is active, or a cancel was sent after it, or one fill of at least its full
quantity was reported. -/
def Accounted (s : Simulator) : Prop :=
  ∀ (i : Nat) (o : AgentOrder), s.sent[i]? = some (Sent.newOrder o) →
    (∃ active ∈ s.mm.base.activeOrders, active.orderId = o.orderId) ∨
      (∃ j : Nat, i < j ∧ s.sent[j]? = some (Sent.cancel o.orderId)) ∨
      ∃ fill ∈ s.fills, (o.orderId = fill.makerId ∨ o.orderId = fill.takerId) ∧
        o.quantity ≤ fill.quantity

/-- A turn sends cancels and then orders, and orders only after cancels of all old quotes. -/
def CancelsFirst (s s' : Simulator) : Prop :=
  ∃ ids orders, s'.sent = s.sent ++ ids.map .cancel ++ orders.map .newOrder ∧
    (orders ≠ [] → ids = s.mm.base.activeOrders.map (·.orderId))

/-- What holds of the market maker's quotes between two turns. -/
structure Tidy (cfg : MarketMakerConfig) (s : Simulator) : Prop where
  pending : s.mm.pendingCancels = none ∨ s.mm.pendingCancels = some []
  connected : s.connected = false → s.sent = []
  fresh : ∀ o, Sent.newOrder o ∈ s.sent → o.orderId < s.mm.base.nextOrderIdValue
  agree : ∀ o, Sent.newOrder o ∈ s.sent → ∀ active ∈ s.mm.base.activeOrders,
    active.orderId = o.orderId → active = o
  bound : s.mm.base.activeOrders.length ≤ 2 * cfg.numLevels
  accounted : s.Accounted

end Simulator

namespace MarketMaker

section Level

variable {cfg : MarketMakerConfig} {q : Quotes} {placed : BaseAgent × List AgentOrder}

/-- A level is its bid, if there is one, and then its ask. -/
theorem placeLevel_rule {M R : BaseAgent × List AgentOrder → Prop} {level : Nat}
    (hbid : q.canBuy = true → M (place .bid (q.bidPrice - level * cfg.levelSpacing)
      (max 1 (q.qty / (level + 1))) placed))
    (hnobid : M placed)
    (hask : ∀ bought, M bought → q.canSell = true →
      R (place .ask (q.askPrice + level * cfg.levelSpacing) (max 1 (q.qty / (level + 1))) bought))
    (hnoask : ∀ bought, M bought → R bought) : R (placeLevel cfg q placed level) := by
  have hbought : M (if q.canBuy then place .bid (q.bidPrice - level * cfg.levelSpacing)
      (max 1 (q.qty / (level + 1))) placed else placed) := by
    split_ifs with hbuy
    · exact hbid hbuy
    · exact hnobid
  unfold placeLevel
  dsimp only
  by_cases hsell : q.canSell = true
  · rw [if_pos hsell]
    exact hask _ hbought hsell
  · rw [if_neg hsell]
    exact hnoask _ hbought

/-- What every order placed keeps, all levels keep. -/
theorem foldl_placeLevel {P : BaseAgent × List AgentOrder → Prop}
    (hplace : ∀ side price quantity placed, P placed → P (place side price quantity placed))
    (q : Quotes) (levels : List Nat) (h : P placed) :
    P (levels.foldl (placeLevel cfg q) placed) := by
  induction levels generalizing placed with
  | nil => exact h
  | cons level levels ih =>
    refine ih (placeLevel_rule (M := P) (fun _ => ?_) h (fun bought hbought _ => ?_) fun _ => id)
    · exact hplace _ _ _ placed h
    · exact hplace _ _ _ bought hbought

end Level

/-- Quotes placed since the id counter stood at `first`: they are the active orders, and have
ids of their own from there on. -/
structure Placed (first : Int) (bound : Nat) (placed : BaseAgent × List AgentOrder) : Prop where
  active : placed.1.activeOrders = placed.2
  next : first ≤ placed.1.nextOrderIdValue
  ids : ∀ o ∈ placed.2, first ≤ o.orderId ∧ o.orderId < placed.1.nextOrderIdValue
  agree : ∀ o ∈ placed.2, ∀ o' ∈ placed.2, o'.orderId = o.orderId → o' = o
  length : placed.2.length ≤ bound

variable {first : Int} {bound : Nat}
  {placed : BaseAgent × List AgentOrder}

private theorem Placed.mono (h : Placed first bound placed) {bound' : Nat} (hle : bound ≤ bound') :
    Placed first bound' placed :=
  { h with length := h.length.trans hle }

private theorem Placed.place (h : Placed first bound placed) (side : AgentSide)
    (price quantity : Int) :
    Placed first (bound + 1) (MarketMaker.place side price quantity placed) := by
  obtain ⟨a, orders⟩ := placed
  obtain ⟨hactive, hnext, hids, hagree, hlength⟩ := h
  dsimp only at hactive hnext hids hagree hlength
  have hnew : ∀ o ∈ a.nextOrderId.2.activeOrders, o.orderId ≠ a.nextOrderIdValue :=
    fun o ho => (hids o (hactive ▸ ho)).2.ne
  have htracked := a.nextOrderId.2.trackOrder_new
    ⟨a.nextOrderIdValue, side, .limit, price, quantity⟩ hnew
  refine ⟨htracked.trans (congrArg (· ++ _) hactive), ?_, fun o ho => ?_,
    fun o ho o' ho' heq => ?_, ?_⟩
  · exact hnext.trans (Int.le_add_one le_rfl)
  · rcases List.mem_append.mp ho with ho | ho
    · exact ⟨(hids o ho).1, (hids o ho).2.trans (Int.lt_succ _)⟩
    · rw [List.mem_singleton.mp ho]
      exact ⟨hnext, Int.lt_succ _⟩
  · rcases List.mem_append.mp ho with ho | ho <;> rcases List.mem_append.mp ho' with ho' | ho'
    · exact hagree o ho o' ho' heq
    · rw [List.mem_singleton.mp ho'] at heq
      exact absurd heq.symm (hids o ho).2.ne
    · rw [List.mem_singleton.mp ho] at heq
      exact absurd heq (hids o' ho').2.ne
    · rw [List.mem_singleton.mp ho, List.mem_singleton.mp ho']
  · have hone : (MarketMaker.place side price quantity (a, orders)).2.length = orders.length + 1 :=
      List.length_append
    omega

/-- A level has a quote on each side at most. -/
theorem Placed.level (cfg : MarketMakerConfig) (q : Quotes) (level : Nat)
    (h : Placed first bound placed) : Placed first (bound + 2) (placeLevel cfg q placed level) := by
  refine placeLevel_rule (M := Placed first (bound + 1)) (fun _ => ?_) ?_
    (fun bought hbought _ => ?_) fun bought hbought => ?_
  · exact h.place _ _ _
  · exact h.mono (Nat.le_succ _)
  · exact hbought.place _ _ _
  · exact hbought.mono (Nat.le_succ _)

private theorem Placed.levels (cfg : MarketMakerConfig) (q : Quotes) (levels : List Nat)
    (h : Placed first bound placed) :
    Placed first (bound + 2 * levels.length) (levels.foldl (placeLevel cfg q) placed) := by
  induction levels generalizing placed bound with
  | nil => exact h
  | cons level levels ih =>
    have hrest := ih (h.level cfg q level)
    rw [List.foldl_cons]
    exact hrest.mono (by rw [List.length_cons]; omega)

/-- The volatility estimate leaves the orders and the pending cancels alone. -/
theorem estimateSigmaSq_keeps (cfg : MarketMakerConfig) (m : MarketMaker) (mid : ℚ) :
    (estimateSigmaSq cfg m mid).base = m.base ∧
      (estimateSigmaSq cfg m mid).pendingCancels = m.pendingCancels := by
  rw [estimateSigmaSq]
  dsimp only
  split_ifs <;> exact ⟨rfl, rfl⟩

/-- A valid update leaves the ids of all old quotes behind, and the orders it returns are the
active ones from then on. -/
theorem onBookUpdate_valid (cfg : MarketMakerConfig) (m : MarketMaker)
    {update : TcpClient.BookUpdateMsg} (step : Int)
    (hvalid : ¬ (update.bestBid ≤ 0 ∨ update.bestAsk ≤ 0)) :
    (m.onBookUpdate cfg update step).2.pendingCancels =
        some (m.base.activeOrders.map (·.orderId)) ∧
      Placed m.base.nextOrderIdValue (2 * cfg.numLevels)
        ((m.onBookUpdate cfg update step).2.base, (m.onBookUpdate cfg update step).1) := by
  let mid : ℚ := (update.bestBid + update.bestAsk) / 2
  let stale := (m.base.updateUnrealizedPnl (truncate mid)).cancelAll
  let m' := estimateSigmaSq cfg { m with base := stale.2, pendingCancels := some stale.1 } mid
  obtain ⟨hbase, hpending⟩ := estimateSigmaSq_keeps cfg
    { m with base := stale.2, pendingCancels := some stale.1 } mid
  have hempty : Placed m.base.nextOrderIdValue 0 (m'.base, []) :=
    ⟨congrArg BaseAgent.activeOrders hbase, (congrArg BaseAgent.nextOrderIdValue hbase).ge,
      by simp, by simp, le_rfl⟩
  have hplaced := hempty.levels cfg (quotes cfg m' mid step) (List.range cfg.numLevels)
  rw [List.length_range, Nat.zero_add] at hplaced
  rw [onBookUpdate, if_neg hvalid]
  exact ⟨hpending, hplaced⟩

end MarketMaker

namespace Simulator

variable {cfg : MarketMakerConfig} {s : Simulator}

/-- A fill leaves an active order where it is, or covers an active order with the same id. -/
theorem active_or_filled {a : BaseAgent} {o : AgentOrder} (fill : TcpClient.FillMsg)
    (ho : o ∈ a.activeOrders) : o ∈ (a.onFill fill).activeOrders ∨
      ∃ filled ∈ a.activeOrders, filled.orderId = o.orderId ∧
        (filled.orderId = fill.makerId ∨ filled.orderId = fill.takerId) ∧
        filled.quantity ≤ fill.quantity := by
  rw [BaseAgent.onFill]
  cases hmatch : a.matching fill with
  | none => exact Or.inl ho
  | some order =>
    obtain ⟨hmem, hleg⟩ := AgentRun.of_matching hmatch
    dsimp only
    split_ifs with hfull
    · by_cases hid : order.orderId = o.orderId
      · exact Or.inr ⟨order, hmem, hid, hleg, hfull⟩
      · exact Or.inl (List.mem_filter.mpr ⟨ho, decide_eq_true (Ne.symm hid)⟩)
    · exact Or.inl ho

/-- A fill adds no active order and takes no id. -/
theorem onFill_shrinks (a : BaseAgent) (fill : TcpClient.FillMsg) :
    (a.onFill fill).activeOrders.length ≤ a.activeOrders.length ∧
      (a.onFill fill).nextOrderIdValue = a.nextOrderIdValue := by
  rw [BaseAgent.onFill]
  cases a.matching fill with
  | none => exact ⟨le_rfl, rfl⟩
  | some order =>
    refine ⟨?_, rfl⟩
    dsimp only
    split_ifs
    · exact List.length_filter_le _ _
    · exact le_rfl

/-- A message from the server keeps the simulator tidy. -/
theorem Tidy.receive (h : s.Tidy cfg) (message : TcpClient.Message) :
    (s.receive message).Tidy cfg := by
  cases message with
  | bookUpdate msg => exact ⟨h.pending, h.connected, h.fresh, h.agree, h.bound, h.accounted⟩
  | fill msg =>
    obtain ⟨-, -, -, hactive⟩ := AgentRun.onFill_spec s.mm.base msg
    obtain ⟨hlength, hnext⟩ := onFill_shrinks s.mm.base msg
    refine ⟨h.pending, h.connected, fun o ho => ?_, fun o ho active hmem => ?_,
      hlength.trans h.bound, fun i o ho => ?_⟩
    · exact (h.fresh o ho).trans_eq hnext.symm
    · exact h.agree o ho active (hactive active hmem)
    · rcases h.accounted i o ho with ⟨active, hmem, hid⟩ | hcancelled | ⟨fill, hmem, hfilled⟩
      · rcases active_or_filled msg hmem with hstays | ⟨filled, hfilled, hsame, hleg, hfull⟩
        · exact Or.inl ⟨active, hstays, hid⟩
        · -- the order covered is the one that was sent
          have heq := h.agree o (List.mem_of_getElem? ho) filled hfilled (hsame.trans hid)
          exact Or.inr (Or.inr ⟨msg, List.mem_append_right _ List.mem_cons_self,
            heq ▸ hleg, heq ▸ hfull⟩)
      · exact Or.inr (Or.inl hcancelled)
      · exact Or.inr (Or.inr ⟨fill, List.mem_append_left _ hmem, hfilled⟩)

/-- Receiving sends nothing. -/
theorem receive_sent (messages : List TcpClient.Message) (s : Simulator) :
    (messages.foldl receive s).sent = s.sent := by
  induction messages generalizing s with
  | nil => rfl
  | cons message messages ih =>
    rw [List.foldl_cons, ih]
    cases message <;> rfl

private theorem Tidy.receiveAll (messages : List TcpClient.Message) (h : s.Tidy cfg) :
    (messages.foldl Simulator.receive s).Tidy cfg := by
  induction messages generalizing s with
  | nil => exact h
  | cons message messages ih => exact ih (h.receive message)

/-- The simulator sends all cancels it was left, and none are pending afterwards. -/
theorem flushCancels_some {ids : List Int} (h : s.mm.pendingCancels = some ids) :
    s.flushCancels = { s with
      mm := { s.mm with pendingCancels := some [] }
      sent := if s.connected then s.sent ++ ids.map .cancel else s.sent } := by
  obtain ⟨⟨base, midHistory, sigmaSq, pending⟩, connected, book, sent, fills⟩ := s
  dsimp only at h
  subst h
  cases ids <;> cases connected <;> simp [flushCancels, submitCancels]

/-- With no pending cancel the flush does nothing. -/
theorem flushCancels_idle (h : s.mm.pendingCancels = none ∨ s.mm.pendingCancels = some []) :
    s.flushCancels = s := by
  rw [flushCancels]
  rcases h with h | h <;> rw [h]

/-- The state after the cancels and orders of a turn are sent, before messages are handed out. -/
def requoted (s : Simulator) (mm : MarketMaker) (orders : List AgentOrder) : Simulator :=
  { s with
    mm := { mm with pendingCancels := some [] }
    sent := if s.connected then
        s.sent ++ (s.mm.base.activeOrders.map (·.orderId)).map .cancel ++ orders.map .newOrder
      else s.sent }

/-- Quotes stay accounted for when the old ones are cancelled and the new ones are active. -/
theorem Accounted.replaced (h : s.Accounted) {s' : Simulator} {orders : List AgentOrder}
    (hsent : s'.sent = s.sent ++ (s.mm.base.activeOrders.map (·.orderId)).map .cancel ++
      orders.map .newOrder)
    (hactive : s'.mm.base.activeOrders = orders) (hfills : s'.fills = s.fills) :
    s'.Accounted := by
  intro i o ho
  rw [hsent, List.append_assoc] at ho ⊢
  rcases lt_or_ge i s.sent.length with hi | hi
  · rw [List.getElem?_append_left hi] at ho
    rcases h i o ho with ⟨active, hold, hid⟩ | ⟨j, hj, hcancel⟩ | hfilled
    · -- it was active before: its cancel is one of those that have just been sent
      have hcancel : Sent.cancel o.orderId ∈
          (s.mm.base.activeOrders.map (·.orderId)).map Sent.cancel ++ orders.map Sent.newOrder :=
        List.mem_append_left _ (List.mem_map_of_mem (List.mem_map.mpr ⟨active, hold, hid⟩))
      obtain ⟨k, hk⟩ := List.mem_iff_getElem?.mp hcancel
      refine Or.inr (Or.inl ⟨s.sent.length + k, by omega, ?_⟩)
      rw [List.getElem?_append_right (Nat.le_add_right _ _), Nat.add_sub_cancel_left, hk]
    · have hj' := (List.getElem?_eq_some_iff.mp hcancel).1
      exact Or.inr (Or.inl ⟨j, hj, (List.getElem?_append_left hj').trans hcancel⟩)
    · exact Or.inr (Or.inr (hfills ▸ hfilled))
  · rw [List.getElem?_append_right hi] at ho
    have hnew : o ∈ orders := by simpa using List.mem_of_getElem? ho
    exact Or.inl ⟨o, hactive ▸ hnew, rfl⟩

/-- A requote that placed at most one order a side and level keeps it tidy. -/
theorem Tidy.requoted (h : s.Tidy cfg) {mm : MarketMaker} {orders : List AgentOrder}
    (hplaced : MarketMaker.Placed s.mm.base.nextOrderIdValue (2 * cfg.numLevels)
      (mm.base, orders)) : (s.requoted mm orders).Tidy cfg := by
  obtain ⟨hactive, hnext, hids, hagree, hlength⟩ := hplaced
  dsimp only at hactive hnext hids hagree hlength
  have hbound : mm.base.activeOrders.length ≤ 2 * cfg.numLevels := hactive ▸ hlength
  cases hconn : s.connected with
  | false =>
    have hsent : (s.requoted mm orders).sent = [] := by
      rw [Simulator.requoted, hconn]
      exact h.connected hconn
    refine ⟨Or.inr rfl, fun _ => hsent, ?_, ?_, hbound, ?_⟩
    · simp [hsent]
    · simp [hsent]
    · simp [Accounted, hsent]
  | true =>
    have hsent : (s.requoted mm orders).sent = s.sent ++
        (s.mm.base.activeOrders.map (·.orderId)).map .cancel ++ orders.map .newOrder := by
      rw [Simulator.requoted, hconn]
      rfl
    have hmem : ∀ o, Sent.newOrder o ∈ (s.requoted mm orders).sent →
        Sent.newOrder o ∈ s.sent ∨ o ∈ orders := by
      intro o ho
      rw [hsent] at ho
      simpa using ho
    refine ⟨Or.inr rfl, fun hno => ?_, fun o ho => ?_, fun o ho active hactive' hid => ?_,
      hbound, h.accounted.replaced hsent hactive rfl⟩
    · exact absurd (hconn.symm.trans hno) (by decide)
    · rcases hmem o ho with ho | ho
      · exact (h.fresh o ho).trans_le hnext
      · exact (hids o ho).2
    · have hnew : active ∈ orders := hactive ▸ hactive'
      rcases hmem o ho with ho | ho
      · have hlt := h.fresh o ho
        have hge := (hids active hnew).1
        omega
      · exact hagree o ho active hnew hid

/-- Without a connection no messages are handed out. -/
theorem submitOrders_eq (s : Simulator) (orders : List AgentOrder)
    (messages : List TcpClient.Message) : s.submitOrders orders messages =
      (if s.connected then messages else []).foldl receive { s with
        sent := if s.connected then s.sent ++ orders.map .newOrder else s.sent } := by
  rw [submitOrders]
  split_ifs <;> rfl

/-- A turn only hands out messages, or does so after the market maker has replaced its quotes. -/
theorem processEvent_cases (h : s.Tidy cfg) (turn : AgentTurn) :
    (∃ messages : List TcpClient.Message, processEvent cfg s turn = messages.foldl receive s) ∨
      ∃ (mm : MarketMaker) (orders : List AgentOrder) (messages : List TcpClient.Message),
        processEvent cfg s turn = messages.foldl receive (s.requoted mm orders) ∧
        MarketMaker.Placed s.mm.base.nextOrderIdValue (2 * cfg.numLevels) (mm.base, orders) := by
  cases turn with
  | other messages =>
    rw [processEvent]
    split
    · exact Or.inl ⟨[], rfl⟩
    · split_ifs
      · exact Or.inl ⟨messages, rfl⟩
      · exact Or.inl ⟨[], rfl⟩
  | marketMaker stepCount messages =>
    rw [processEvent]
    split
    · exact Or.inl ⟨[], rfl⟩
    next update _ =>
      by_cases hvalid : update.bestBid ≤ 0 ∨ update.bestAsk ≤ 0
      · have hskip : s.mm.onBookUpdate cfg update stepCount = ([], s.mm) := if_pos hvalid
        refine Or.inl ⟨if s.connected then messages else [], ?_⟩
        rw [hskip]
        dsimp only
        rw [flushCancels_idle h.pending, submitOrders_eq]
        simp
      · obtain ⟨hpending, hplaced⟩ := MarketMaker.onBookUpdate_valid cfg s.mm stepCount hvalid
        refine Or.inr ⟨_, _, if s.connected then messages else [], ?_, hplaced⟩
        dsimp only
        rw [flushCancels_some hpending, submitOrders_eq, requoted]
        dsimp only
        split_ifs <;> rfl

/-- A turn keeps the quotes in order. -/
theorem Tidy.turn (h : s.Tidy cfg) (turn : AgentTurn) : (processEvent cfg s turn).Tidy cfg := by
  rcases processEvent_cases h turn with ⟨messages, heq⟩ | ⟨mm, orders, messages, heq, hplaced⟩
  · exact heq ▸ h.receiveAll messages
  · exact heq ▸ (h.requoted hplaced).receiveAll messages

/-- A whole run of turns keeps it tidy. -/
theorem Tidy.run (turns : List AgentTurn) (h : s.Tidy cfg) : (run cfg s turns).Tidy cfg := by
  induction turns generalizing s with
  | nil => exact h
  | cons turn turns ih => exact ih (h.turn turn)

/-- A turn of a tidy simulator cancels before it quotes. -/
theorem Tidy.cancelsFirst (h : s.Tidy cfg) (turn : AgentTurn) :
    s.CancelsFirst (processEvent cfg s turn) := by
  have hnothing : ∀ {s' : Simulator}, s'.sent = s.sent → s.CancelsFirst s' :=
    fun heq => ⟨[], [], by simp [heq], fun hne => absurd rfl hne⟩
  rcases processEvent_cases h turn with ⟨messages, heq⟩ | ⟨mm, orders, messages, heq, -⟩
  · exact hnothing ((congrArg sent heq).trans (receive_sent messages s))
  · have hsent := (congrArg sent heq).trans (receive_sent messages _)
    cases hconn : s.connected with
    | false => exact hnothing (by rw [hsent, Simulator.requoted, hconn]; rfl)
    | true =>
      exact ⟨s.mm.base.activeOrders.map (·.orderId), orders,
        by rw [hsent, Simulator.requoted, hconn]; rfl, fun _ => rfl⟩

end Simulator

/-- After every sequence of turns each quote ever sent is active, was cancelled later or has been
filled, at most two quotes a level are active, and the next turn cancels the old quotes before it
sends new ones. -/
theorem quotes_do_not_accumulate (cfg : MarketMakerConfig) (tickSize : ℚ) (firstId : Int)
    (connected : Bool) (book : Option TcpClient.BookUpdateMsg) (turns : List AgentTurn) :
    let start : Simulator :=
      { mm := { base := { tickSize := tickSize, nextOrderIdValue := firstId } }
        connected := connected
        lastBookUpdate := book }
    let s := Simulator.run cfg start turns
    s.Accounted ∧ s.mm.base.activeOrders.length ≤ 2 * cfg.numLevels ∧
      ∀ turn, s.CancelsFirst (Simulator.processEvent cfg s turn) := by
  intro start s
  have hstart : start.Tidy cfg :=
    ⟨Or.inl rfl, fun _ => rfl, by simp [start], by simp [start], by simp [start],
      by simp [Simulator.Accounted, start]⟩
  have htidy := hstart.run turns
  exact ⟨htidy.accounted, htidy.bound, htidy.cancelsFirst⟩

-- a quote that has been filled is not cancelled; the other one is, before it is replaced
example : (Simulator.run
      { gamma := 1 / 100, kappa := 3 / 2, maxInventory := 100, numLevels := 1, levelSpacing := 2,
        baseQuantity := 50, sigmaWindow := 100, totalSteps := 10000, log := fun x => x - 1,
        gamma_pos := by norm_num, kappa_pos := by norm_num, totalSteps_pos := by norm_num }
      { mm := { base := {} }
        connected := true
        lastBookUpdate := some ⟨9995, 10005, 0, 0, [], [], [], []⟩ }
      [.marketMaker 1 [.fill ⟨1, 77, 9999, 50⟩], .marketMaker 2 []]).sent =
    [.newOrder ⟨1, .bid, .limit, 9999, 50⟩, .newOrder ⟨2, .ask, .limit, 10001, 50⟩, .cancel 2,
      .newOrder ⟨3, .bid, .limit, 9999, 30⟩, .newOrder ⟨4, .ask, .limit, 10001, 30⟩] := by
  decide +kernel

end LiquidityArena

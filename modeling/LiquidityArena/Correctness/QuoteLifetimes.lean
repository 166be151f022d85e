import LiquidityArena.Correctness.OrderTraffic

/-!
# What the metrics know of the quotes

The metrics see every order and cancel that the socket takes, with the time. They look for
the order of a cancel by its id, from the last quote back, among those that are open. As
time does not run backwards no quote is live for a negative time; and as long as no agent
uses up its block of ids, every quote is closed by its own cancel.
-/

namespace LiquidityArena

variable {T : Type} [TimeField T] [LinearOrder T]

namespace QuoteLog

open Tickets

variable {T : Type}

/-- What the metrics take in, with the times. -/
def records (calls : List (SendCall T)) : List (T × Entry) :=
  calls.filterMap fun c =>
    if c.taken && c.agent.isSome then some (c.timestamp, c.message.entry) else none

/-- An order is a quote, a cancel closes one. -/
def enter (m : QuoteLog T) (r : T × Entry) : QuoteLog T :=
  match r.2 with
  | .hand n => m.recordQuote { orderId := n, timestamp := r.1 }
  | .cancel n => m.recordCancel n r.1

/-- When the order with an id was cancelled. -/
def cancelTime (records : List (T × Entry)) (n : Int) : Option T :=
  (records.find? (·.2 = .cancel n)).map Prod.fst

/-- The orders as quotes, each of them open until it was cancelled. -/
def quotesOf (cancelled : Int → Option T) (records : List (T × Entry)) : List (QuoteRecord T) :=
  records.filterMap fun r =>
    match r.2 with
    | .hand n => some { orderId := n, timestamp := r.1, cancelTimestamp := cancelled n }
    | .cancel _ => none

@[simp] theorem records_append (calls calls' : List (SendCall T)) :
    records (calls ++ calls') = records calls ++ records calls' := List.filterMap_append

@[simp] theorem quotesOf_append (cancelled : Int → Option T) (rs rs' : List (T × Entry)) :
    quotesOf cancelled (rs ++ rs') = quotesOf cancelled rs ++ quotesOf cancelled rs' :=
  List.filterMap_append

private theorem ids_quotesOf (cancelled : Int → Option T) (rs : List (T × Entry)) :
    (quotesOf cancelled rs).map (·.orderId) = handed (rs.map Prod.snd) := by
  rw [quotesOf, handed, List.map_filterMap, List.filterMap_map]
  refine List.filterMap_congr fun r _ => ?_
  rw [Function.comp_apply]
  cases r.2 <;> rfl

private theorem foldl_take (calls : List (SendCall T)) (m : QuoteLog T) :
    calls.foldl take m = (records calls).foldl enter m := by
  induction calls generalizing m with
  | nil => rfl
  | cons c calls ih =>
    rw [List.foldl_cons, ih, ← List.singleton_append, records_append, List.foldl_append]
    congr 1
    rw [take, records, List.filterMap_cons, List.filterMap_nil]
    split_ifs
    · cases hmessage : c.message <;> simp [record, enter, Sent.entry]
    · rfl

private theorem mem_records {calls : List (SendCall T)} {r : T × Entry} : r ∈ records calls ↔
    ∃ c ∈ calls, c.taken ∧ c.agent.isSome ∧ (c.timestamp, c.message.entry) = r := by
  rw [records, List.mem_filterMap]
  refine exists_congr fun c => and_congr_right fun _ => ?_
  rw [Option.ite_none_right_eq_some, Bool.and_eq_true, Option.some.injEq, and_assoc]

/-- The calls for agents are tried, and those that succeed are taken in. -/
theorem records_eq (calls : List (SendCall T)) : records calls =
    ((calls.filter (·.agent.isSome)).filter (·.taken)).map
      fun c => (c.timestamp, c.message.entry) := by
  rw [records, List.filter_filter, ← List.filterMap_eq_map, List.filterMap_filter]
  rfl

section CloseFirst

variable {n : Int} {t : T} {q : QuoteRecord T} {quotes : List (QuoteRecord T)}

/-- A quote stays or is closed. -/
theorem mem_closeFirst (hq : q ∈ closeFirst n t quotes) :
    q ∈ quotes ∨ ∃ q' ∈ quotes, q = { q' with cancelTimestamp := some t } := by
  induction quotes with
  | nil => exact Or.inl hq
  | cons q' quotes ih =>
    rw [closeFirst] at hq
    split_ifs at hq
    · rcases List.mem_cons.mp hq with rfl | hq
      · exact Or.inr ⟨q', List.mem_cons_self, rfl⟩
      · exact Or.inl (List.mem_cons_of_mem _ hq)
    · rcases List.mem_cons.mp hq with rfl | hq
      · exact Or.inl List.mem_cons_self
      · rcases ih hq with h | ⟨q'', hq'', rfl⟩
        · exact Or.inl (List.mem_cons_of_mem _ h)
        · exact Or.inr ⟨q'', List.mem_cons_of_mem _ hq'', rfl⟩

/-- With ids of their own the quote that is closed is the one with the id, wherever it is. -/
theorem closeFirst_eq_map (hids : (quotes.map (·.orderId)).Nodup)
    (hopen : ∀ q ∈ quotes, q.orderId = n → q.cancelTimestamp = none) :
    closeFirst n t quotes =
      quotes.map fun q => if q.orderId = n then { q with cancelTimestamp := some t } else q := by
  induction quotes with
  | nil => rfl
  | cons q quotes ih =>
    obtain ⟨hnew, hids⟩ := List.nodup_cons.mp hids
    rw [closeFirst, List.map_cons]
    by_cases hid : q.orderId = n
    · have hothers : ∀ q' ∈ quotes, q'.orderId ≠ n := fun q' hq' heq =>
        hnew (List.mem_map.mpr ⟨q', hq', heq.trans hid.symm⟩)
      rw [if_pos ⟨hid, by rw [hopen q List.mem_cons_self hid]; rfl⟩, if_pos hid]
      congr 1
      refine (List.map_id quotes).symm.trans (List.map_congr_left fun q' hq' => ?_)
      exact (if_neg (hothers q' hq')).symm
    · rw [if_neg fun h => hid h.1, if_neg hid,
        ih hids fun q' hq' => hopen q' (List.mem_cons_of_mem _ hq')]

end CloseFirst

private theorem cancelTime_append (rs rs' : List (T × Entry)) (n : Int) :
    cancelTime (rs ++ rs') n = (cancelTime rs n).or (cancelTime rs' n) := by
  rw [cancelTime, List.find?_append, Option.map_or, cancelTime, cancelTime]

private theorem cancelTime_concat (rs : List (T × Entry)) (t : T) (n m : Int) :
    cancelTime (rs ++ [(t, .cancel n)]) m =
      (cancelTime rs m).or (if m = n then some t else none) := by
  rw [cancelTime_append]
  congr 1
  rw [cancelTime, List.find?_singleton]
  by_cases hmn : m = n
  · simp [hmn]
  · simp [hmn, Ne.symm hmn]

/-- Closing the quote of an order that is not cancelled yet. -/
theorem close_quotesOf {rs : List (T × Entry)} (h : (rs.map Prod.snd).Pairwise Entry.Before)
    {n : Int} (hopen : cancelTime rs n = none) (t : T) :
    (closeFirst n t (quotesOf (cancelTime rs) rs).reverse).reverse =
      quotesOf (cancelTime (rs ++ [(t, .cancel n)])) rs := by
  have hids : ((quotesOf (cancelTime rs) rs).reverse.map (·.orderId)).Nodup := by
    rw [List.map_reverse, List.nodup_reverse, ids_quotesOf]
    exact nodup_handed h
  rw [closeFirst_eq_map hids fun q hq hid => ?_]
  · rw [List.map_reverse, List.reverse_reverse, quotesOf, List.map_filterMap, quotesOf]
    refine List.filterMap_congr fun r _ => ?_
    rcases r with ⟨t', m | m⟩
    · rw [Option.map_some]
      dsimp only
      rw [cancelTime_concat]
      by_cases hmn : m = n
      · rw [if_pos hmn, if_pos hmn, hmn, hopen, Option.none_or]
      · rw [if_neg hmn, if_neg hmn, Option.or_none]
    · rfl
  · obtain ⟨r, -, heq⟩ := List.mem_filterMap.mp (List.mem_reverse.mp hq)
    rcases r with ⟨t', m | m⟩
    · obtain rfl := Option.some.inj heq
      obtain rfl : m = n := hid
      exact hopen
    · cases heq

/-- If the orders and cancels are in order, every quote is closed by its own cancel. -/
theorem foldl_enter {rs : List (T × Entry)} (h : (rs.map Prod.snd).Pairwise Entry.Before) :
    rs.foldl enter {} =
      { quotes := quotesOf (cancelTime rs) rs
        totalOrdersSent := (handed (rs.map Prod.snd)).length
        totalCancels := (cancelled (rs.map Prod.snd)).length } := by
  induction rs using List.reverseRecOn with
  | nil => rfl
  | append_singleton rs r ih =>
    obtain ⟨t, e⟩ := r
    rw [List.map_append, List.pairwise_append] at h
    obtain ⟨hprior, -, hlast⟩ := h
    -- no cancel of the same order has come before
    have hopen : cancelTime rs e.number = none := by
      rw [cancelTime, Option.map_eq_none_iff, List.find?_eq_none]
      intro r hr hcancel
      have hentry : r.2 = .cancel e.number := of_decide_eq_true hcancel
      obtain ⟨⟨n, hhand⟩, -⟩ := hlast r.2 (List.mem_map_of_mem hr) e List.mem_cons_self
        (by rw [hentry]; rfl)
      rw [hentry] at hhand
      cases hhand
    rw [List.foldl_append, ih hprior, List.foldl_cons, List.foldl_nil, quotesOf_append,
      List.map_append, handed_append, cancelled_append, List.length_append, List.length_append]
    cases e with
    | hand n =>
      have hcancelled : cancelTime (rs ++ [(t, .hand n)]) = cancelTime rs := by
        funext m
        rw [cancelTime_append]
        exact Option.or_none
      have hnew : quotesOf (cancelTime rs) [(t, .hand n)] = [{ orderId := n, timestamp := t }] := by
        change cancelTime rs n = none at hopen
        simp [quotesOf, hopen]
      rw [hcancelled, hnew]
      rfl
    | cancel n =>
      have hnew : quotesOf (cancelTime (rs ++ [(t, .cancel n)])) [(t, .cancel n)] = [] := rfl
      rw [hnew, List.append_nil, ← close_quotesOf (n := n) hprior hopen t]
      rfl

private theorem isSome_cancelTime {rs : List (T × Entry)} {n : Int} :
    (cancelTime rs n).isSome ↔ n ∈ cancelled (rs.map Prod.snd) := by
  rw [cancelTime, Option.isSome_map, List.find?_isSome, mem_cancelled, List.mem_map]
  constructor
  · rintro ⟨r, hr, hcancel⟩
    exact ⟨r, hr, of_decide_eq_true hcancel⟩
  · rintro ⟨r, hr, hcancel⟩
    exact ⟨r, hr, decide_eq_true hcancel⟩

/-- If only orders are cancelled that were taken in, each cancel closes a quote. -/
theorem countP_closed {rs : List (T × Entry)} (h : (rs.map Prod.snd).Pairwise Entry.Before)
    (hknown : ∀ n ∈ cancelled (rs.map Prod.snd), n ∈ handed (rs.map Prod.snd)) :
    (quotesOf (cancelTime rs) rs).countP (·.cancelTimestamp.isSome) =
      (cancelled (rs.map Prod.snd)).length := by
  have hown : ∀ q ∈ quotesOf (cancelTime rs) rs, q.cancelTimestamp = cancelTime rs q.orderId := by
    intro q hq
    obtain ⟨⟨t, n | n⟩, -, heq⟩ := List.mem_filterMap.mp hq
    · obtain rfl := Option.some.inj heq
      rfl
    · cases heq
  have hperm : ((handed (rs.map Prod.snd)).filter fun n => (cancelTime rs n).isSome).Perm
      (cancelled (rs.map Prod.snd)) := by
    refine (List.perm_ext_iff_of_nodup ((nodup_handed h).filter _) (nodup_cancelled h)).mpr
      fun n => ?_
    rw [List.mem_filter, isSome_cancelTime]
    exact and_iff_right_of_imp (hknown n)
  calc (quotesOf (cancelTime rs) rs).countP (·.cancelTimestamp.isSome)
      = (quotesOf (cancelTime rs) rs).countP fun q => (cancelTime rs q.orderId).isSome :=
        List.countP_congr fun q hq => by rw [hown q hq]
    _ = (handed (rs.map Prod.snd)).countP fun n => (cancelTime rs n).isSome := by
        rw [← ids_quotesOf (cancelTime rs) rs, List.countP_map]
        rfl
    _ = (cancelled (rs.map Prod.snd)).length := by
        rw [List.countP_eq_length_filter, hperm.length_eq]

/-- If what is taken in does not go back in time, no quote is closed before it was placed. -/
theorem closed_after_placed [LinearOrder T] {rs : List (T × Entry)}
    (hsorted : (rs.map Prod.fst).Pairwise (· ≤ ·)) : ∀ q ∈ (rs.foldl enter {}).quotes,
      q.wasFilled = false ∧ (∃ r ∈ rs, r.1 = q.timestamp) ∧
        ∀ t, q.cancelTimestamp = some t → q.timestamp ≤ t := by
  induction rs using List.reverseRecOn with
  | nil => simp
  | append_singleton rs r ih =>
    rw [List.map_append, List.pairwise_append] at hsorted
    obtain ⟨hprior, -, hlast⟩ := hsorted
    have hkeep : ∀ q : QuoteRecord T, (∃ r ∈ rs, r.1 = q.timestamp) →
        ∃ r' ∈ rs ++ [r], r'.1 = q.timestamp := by
      rintro q ⟨r', hr', htime⟩
      exact ⟨r', List.mem_append_left _ hr', htime⟩
    intro q hq
    rw [List.foldl_append, List.foldl_cons, List.foldl_nil, enter] at hq
    cases hentry : r.2 with
    | hand n =>
      rw [hentry] at hq
      rcases List.mem_append.mp hq with hq | hq
      · obtain ⟨hfilled, hplaced, hlate⟩ := ih hprior q hq
        exact ⟨hfilled, hkeep q hplaced, hlate⟩
      · obtain rfl := List.mem_singleton.mp hq
        exact ⟨rfl, ⟨r, List.mem_append_right _ List.mem_cons_self, rfl⟩, fun t ht => by cases ht⟩
    | cancel n =>
      rw [hentry] at hq
      rcases mem_closeFirst (List.mem_reverse.mp hq) with hq | ⟨q', hq', rfl⟩
      · obtain ⟨hfilled, hplaced, hlate⟩ := ih hprior q (List.mem_reverse.mp hq)
        exact ⟨hfilled, hkeep q hplaced, hlate⟩
      · obtain ⟨hfilled, hplaced, -⟩ := ih hprior q' (List.mem_reverse.mp hq')
        refine ⟨hfilled, hkeep q' hplaced, fun t ht => ?_⟩
        obtain rfl := Option.some.inj ht
        obtain ⟨r', hr', htime⟩ := hplaced
        dsimp only
        rw [← htime]
        exact hlast r'.1 (List.mem_map_of_mem hr') r.1 List.mem_cons_self

/-- If no quote is closed before it was placed, the average lifetime is not negative. -/
theorem quoteLifetimeAvg_nonneg [DivisionRing T] [LinearOrder T] [IsStrictOrderedRing T]
    {m : QuoteLog T}
    (h : ∀ q ∈ m.quotes, ∀ t, q.cancelTimestamp = some t → q.timestamp ≤ t) :
    0 ≤ m.quoteLifetimeAvg := by
  have hlifetimes : ∀ t ∈ m.lifetimes, 0 ≤ t := by
    intro t ht
    obtain ⟨q, hq, heq⟩ := List.mem_filterMap.mp ht
    cases hcancelled : q.cancelTimestamp with
    | some cancelled =>
      rw [hcancelled] at heq
      obtain rfl := Option.some.inj heq
      exact sub_nonneg.mpr (h q hq cancelled hcancelled)
    | none =>
      rw [hcancelled] at heq
      dsimp only at heq
      split_ifs at heq
      obtain rfl := Option.some.inj heq
      exact le_rfl
  rw [quoteLifetimeAvg]
  split_ifs
  · exact le_rfl
  · exact div_nonneg (List.sum_nonneg hlifetimes) (Nat.cast_nonneg _)

end QuoteLog

/-- An agent that has not used up its block only sends messages about orders in it. -/
theorem Agent.Kept.number_lt {first : Int} {a : Agent} {traffic : List Sent}
    (h : a.Kept first traffic) (hsent : a.base.stats.totalOrdersSent ≤ 1000000) {message : Sent}
    (hmessage : message ∈ traffic) :
    first ≤ message.entry.number ∧ message.entry.number < first + 1000000 := by
  obtain ⟨hle, hlt⟩ := h.valid.number_lt (List.mem_map_of_mem hmessage)
  have hnext : a.base.nextOrderIdValue = first + a.base.stats.totalOrdersSent := by
    have hfirst := h.first
    rw [BaseAgent.firstId] at hfirst
    omega
  refine ⟨hle, hlt.trans_le ?_⟩
  rw [Agent.counter, hnext]
  dsimp only
  omega

namespace Arena

variable {T : Type} {cfg : ArenaConfig T} {s s' s'' : Arena T} {t : T}

/-- The messages for an agent are those of the calls for it. -/
theorem traffic_eq (calls : List (SendCall T)) (id : AgentId) :
    traffic calls id =
      ((calls.filter (·.agent.isSome)).filter (·.agent = some id)).map (·.message) := by
  rw [traffic, List.filter_filter, ← List.filterMap_eq_map, List.filterMap_filter]
  refine List.filterMap_congr fun c _ => ?_
  by_cases hid : c.agent = some id
  · simp [hid]
  · simp [hid]

/-- A call for an agent is one of its messages. -/
theorem Orderly.owner {ids : List AgentId} (h : s.Orderly ids)
    (hknown : ∀ c ∈ s.calls, ∀ id, c.agent = some id → id ∈ s.agents.map Prod.fst)
    {c : SendCall T} (hc : c ∈ s.calls) (hagent : c.agent.isSome) :
    ∃ (id : AgentId) (a : Agent) (k : Nat), c.agent = some id ∧ s.agents[k]? = some (id, a) ∧
      c.message ∈ traffic s.calls id ∧
      a.Kept (k * BaseAgent.idBlock + 1) (traffic s.calls id) := by
  obtain ⟨id, hid⟩ := Option.isSome_iff_exists.mp hagent
  obtain ⟨⟨id', a⟩, hmem, rfl⟩ := List.mem_map.mp (hknown c hc id hid)
  obtain ⟨k, hk⟩ := List.getElem?_of_mem hmem
  exact ⟨id', a, k, hid, hk, List.mem_filterMap.mpr ⟨c, hc, if_pos hid⟩, h.kept k id' a hk⟩

/-- If no agent has used up its block of ids, all orders and cancels are in order. -/
theorem Orderly.pairwise_before {ids : List AgentId} (h : s.Orderly ids)
    (hknown : ∀ c ∈ s.calls, ∀ id, c.agent = some id → id ∈ s.agents.map Prod.fst)
    (hblocks : ∀ entry ∈ s.agents, entry.2.base.stats.totalOrdersSent ≤ 1000000) :
    ((s.calls.filter (·.agent.isSome)).map (·.message.entry)).Pairwise Tickets.Entry.Before := by
  refine Tickets.pairwise_of_counters SendCall.agent (fun c => c.message.entry) (fun c hc => ?_)
    fun c hc c' hc' hne heq => ?_
  · obtain ⟨hc, hagent⟩ := List.mem_filter.mp hc
    obtain ⟨id, a, k, hid, -, -, hkept⟩ := h.owner hknown hc hagent
    have hbefore := hkept.valid.pairwise_before
    rw [Agent.counter, traffic_eq, List.map_map] at hbefore
    rw [hid]
    exact hbefore
  · obtain ⟨hc, hagent⟩ := List.mem_filter.mp hc
    obtain ⟨hc', hagent'⟩ := List.mem_filter.mp hc'
    obtain ⟨id, a, k, hid, hk, hmem, hkept⟩ := h.owner hknown hc hagent
    obtain ⟨id', a', k', hid', hk', hmem', hkept'⟩ := h.owner hknown hc' hagent'
    have hblock : k ≠ k' := by
      rintro rfl
      obtain ⟨rfl, -⟩ := Prod.mk.inj (Option.some.inj (hk.symm.trans hk'))
      exact hne (hid.trans hid'.symm)
    have hlow := hkept.number_lt (hblocks _ (List.mem_of_getElem? hk)) hmem
    have hlow' := hkept'.number_lt (hblocks _ (List.mem_of_getElem? hk')) hmem'
    rw [BaseAgent.idBlock] at hlow hlow'
    omega

/-- If the socket has taken all calls, it has taken the orders of all the cancels. -/
theorem Orderly.handed_records {ids : List AgentId} (h : s.Orderly ids)
    (hknown : ∀ c ∈ s.calls, ∀ id, c.agent = some id → id ∈ s.agents.map Prod.fst)
    (htaken : ∀ c ∈ s.calls, c.agent.isSome → c.taken) {n : Int}
    (hn : n ∈ Tickets.cancelled ((QuoteLog.records s.calls).map Prod.snd)) :
    n ∈ Tickets.handed ((QuoteLog.records s.calls).map Prod.snd) := by
  obtain ⟨r, hr, hcancel⟩ := List.mem_map.mp (Tickets.mem_cancelled.mp hn)
  obtain ⟨c, hc, -, hagent, rfl⟩ := QuoteLog.mem_records.mp hr
  obtain ⟨id, a, k, hid, -, hmem, hkept⟩ := h.owner hknown hc hagent
  have hhanded := hkept.valid.ordered.number_mem (List.mem_map_of_mem hmem)
  obtain ⟨message, hmessage, hentry⟩ := List.mem_map.mp (Tickets.mem_handed.mp hhanded)
  obtain ⟨c', hc', heq⟩ := List.mem_filterMap.mp hmessage
  rw [Option.ite_none_right_eq_some] at heq
  obtain ⟨hid', heq⟩ := heq
  obtain rfl := Option.some.inj heq
  have hagent' : c'.agent.isSome := by rw [hid', Option.isSome_some]
  have hnumber : c.message.entry.number = n := congrArg Tickets.Entry.number hcancel
  refine Tickets.mem_handed.mpr (List.mem_map.mpr ⟨_, QuoteLog.mem_records.mpr
    ⟨c', hc', htaken c' hc' hagent', hagent', rfl⟩, ?_⟩)
  exact hentry.trans (congrArg Tickets.Entry.hand hnumber)

/-- What a step adds to the calls: those for an agent are made at a given time for one there is,
and what was sent is taken into the metrics. -/
structure Extends (t : T) (s s' : Arena T) : Prop where
  keys : s'.agents.map Prod.fst = s.agents.map Prod.fst
  calls : ∃ calls, s'.calls = s.calls ++ calls ∧
    s'.quotes = calls.foldl QuoteLog.take s.quotes ∧
    ∀ c ∈ calls, ∀ id, c.agent = some id → id ∈ s.agents.map Prod.fst ∧ c.timestamp = t

private theorem Extends.quiet (hkeys : s'.agents.map Prod.fst = s.agents.map Prod.fst)
    (hcalls : s'.calls = s.calls) (hquotes : s'.quotes = s.quotes) : s.Extends t s' :=
  ⟨hkeys, [], by rw [hcalls, List.append_nil], hquotes, by simp⟩

private theorem Extends.trans (h : s.Extends t s') (h' : s'.Extends t s'') : s.Extends t s'' := by
  obtain ⟨calls, hcalls, hquotes, hnew⟩ := h.calls
  obtain ⟨calls', hcalls', hquotes', hnew'⟩ := h'.calls
  refine ⟨h'.keys.trans h.keys, calls ++ calls', ?_, ?_, fun c hc id hid => ?_⟩
  · rw [hcalls', hcalls, List.append_assoc]
  · rw [hquotes', hquotes, List.foldl_append]
  · rcases List.mem_append.mp hc with hc | hc
    · exact hnew c hc id hid
    · exact h.keys ▸ hnew' c hc id hid

private theorem keys_map (agents : List (AgentId × Agent)) (f : AgentId × Agent → AgentId × Agent)
    (h : ∀ entry, (f entry).1 = entry.1) : (agents.map f).map Prod.fst = agents.map Prod.fst := by
  rw [List.map_map]
  exact List.map_congr_left fun entry _ => h entry

private theorem extends_receiveAll (messages : List TcpClient.Message) (s : Arena T) :
    s.Extends t (messages.foldl receive s) := by
  induction messages generalizing s with
  | nil => exact .quiet rfl rfl rfl
  | cons message messages ih =>
    refine Extends.trans ?_ (ih (s.receive message))
    cases message with
    | bookUpdate msg => exact .quiet rfl rfl rfl
    | fill msg => exact .quiet (keys_map _ _ fun _ => rfl) rfl rfl

private theorem extends_mapHuman (s : Arena T) (f : HumanAgent → HumanAgent) :
    s.Extends t (s.mapHuman f) := by
  refine .quiet (keys_map _ _ fun entry => ?_) rfl rfl
  split <;> rfl

/-- The whale is not an agent. -/
theorem extends_processIncoming (s : Arena T) (message : FrontendMessage) :
    s.Extends t (s.processIncoming message) := by
  cases message with
  | marketOrder side qty => exact extends_mapHuman s _
  | limitOrder side offset qty => exact extends_mapHuman s _
  | cancelAll => exact extends_mapHuman s _
  | flashCrash => exact .quiet rfl rfl rfl
  | whaleBuy socket =>
    rw [processIncoming]
    split_ifs
    · refine ⟨rfl, _, rfl, ?_, fun c hc id hid => ?_⟩
      · simp [send, QuoteLog.take]
      · obtain rfl := List.mem_singleton.mp hc
        cases hid
    · exact .quiet rfl rfl rfl
  | volSpike => exact .quiet rfl rfl rfl
  | ignored => exact .quiet rfl rfl rfl

private theorem extends_processIncomings (messages : List FrontendMessage) (s : Arena T) :
    s.Extends t (messages.foldl processIncoming s) := by
  induction messages generalizing s with
  | nil => exact .quiet rfl rfl rfl
  | cons message messages ih => exact (extends_processIncoming s message).trans (ih _)

private theorem extends_agentAction {id : AgentId} {input : ArenaInput T}
    (haction : s.agentAction cfg id input = some s') : s.Extends s.currentTime s' := by
  rcases agentAction_cases haction with
    rfl | ⟨update, agent, agent', orders, -, hagent, -, hcases⟩
  · exact .quiet rfl rfl rfl
  have hkeys : (s.setAgent id agent'.flushed).agents.map Prod.fst = s.agents.map Prod.fst := by
    refine keys_map _ _ fun entry => ?_
    split_ifs with hid
    · exact hid.symm
    · rfl
  rcases hcases with ⟨-, rfl⟩ | ⟨-, calls, -, hcalls, rfl⟩
  · exact .quiet hkeys rfl rfl
  · refine Extends.trans ?_ (extends_receiveAll input.messages _)
    refine ⟨hkeys, calls, rfl, rfl, fun c hc id' hid' => ?_⟩
    obtain ⟨hid, htime⟩ := hcalls c hc
    obtain rfl := Option.some.inj (hid.symm.trans hid')
    exact ⟨List.mem_map_of_mem (mem_of_lookup hagent), htime⟩

private theorem extends_processEvent {event : Event T} {input : ArenaInput T}
    (hevent : s.processEvent cfg event input = some s') : s.Extends s.currentTime s' := by
  rw [processEvent] at hevent
  split at hevent
  · obtain rfl := Option.some.inj hevent
    exact .quiet (keys_map _ _ fun _ => rfl) rfl rfl
  · split at hevent
    · obtain rfl := Option.some.inj hevent
      exact .quiet rfl rfl rfl
    · exact extends_agentAction hevent
  · obtain rfl := Option.some.inj hevent
    rw [metricsSample]
    split
    · exact .quiet rfl rfl rfl
    · exact .quiet rfl rfl rfl
  · obtain rfl := Option.some.inj hevent
    exact .quiet rfl rfl rfl

end Arena

namespace ArenaConfig

variable {cfg : ArenaConfig T} {connected : Bool}
  {draws : Nat → AgentId → LatencyDraw T} {actions : List (Event T × ArenaInput T)}
  {st : EventLoop.State (Option (Arena T)) (Event T)} {s s' : Arena T}

private theorem handle_extends {event : Event T} {input : ArenaInput T}
    (hpass : (cfg.handle (some s) event input).1 = some s') :
    s.Extends event.timestamp s' := by
  have hclock : s.Extends event.timestamp { input.frontend.foldl Arena.processIncoming s with
      currentTime := event.timestamp } :=
    (Arena.extends_processIncomings input.frontend s).trans (.quiet rfl rfl rfl)
  exact hclock.trans (Arena.extends_processEvent hpass)

/-- Without a connection nothing is sent. -/
theorem run_silent (hrun : Machine.run cfg.iterate (cfg.start false draws) actions = some st)
    (hinner : st.inner = some s) : s.connected = false ∧ s.calls = [] := by
  refine run_invariant (fun s => s.connected = false ∧ s.calls = []) ⟨rfl, rfl⟩
    (fun s message h => ?_) (fun s t h => h) (fun s event input s' h hevent => ?_) hrun hinner
  · cases message with
    | whaleBuy socket =>
      rw [Arena.processIncoming, if_neg (by simp [h.1])]
      exact h
    | marketOrder side qty => exact h
    | limitOrder side offset qty => exact h
    | cancelAll => exact h
    | flashCrash => exact h
    | volSpike => exact h
    | ignored => exact h
  · rw [Arena.processEvent] at hevent
    split at hevent
    · obtain rfl := Option.some.inj hevent
      exact h
    · split at hevent
      · obtain rfl := Option.some.inj hevent
        exact h
      · rcases Arena.agentAction_cases hevent with
          rfl | ⟨update, agent, agent', orders, -, -, -, ⟨-, rfl⟩ | ⟨hconn, -⟩⟩
        · exact h
        · exact h
        · exact absurd hconn (by simp [h.1])
    · obtain rfl := Option.some.inj hevent
      rw [Arena.metricsSample]
      split <;> exact h
    · obtain rfl := Option.some.inj hevent
      exact h

/-- The calls of a run are for agents there are, and what was sent is in the metrics. -/
structure Recorded (cfg : ArenaConfig T) (s : Arena T) : Prop where
  keys : s.agents.map Prod.fst = (cfg.arena true).agents.map Prod.fst
  quotes : s.quotes = s.calls.foldl QuoteLog.take {}
  known : ∀ c ∈ s.calls, ∀ id, c.agent = some id → id ∈ s.agents.map Prod.fst

omit [LinearOrder T] in
private theorem Recorded.extends (h : cfg.Recorded s) {t : T} (hext : s.Extends t s') :
    cfg.Recorded s' := by
  obtain ⟨calls, hcalls, hquotes, hnew⟩ := hext.calls
  refine ⟨hext.keys.trans h.keys, ?_, fun c hc id hid => ?_⟩
  · rw [hquotes, hcalls, List.foldl_append, h.quotes]
  · rw [hext.keys]
    rw [hcalls] at hc
    rcases List.mem_append.mp hc with hc | hc
    · exact h.known c hc id hid
    · exact (hnew c hc id hid).1

private theorem run_recorded
    (hrun : Machine.run cfg.iterate (cfg.start connected draws) actions = some st)
    (hinner : st.inner = some s) : cfg.Recorded s := by
  have hloop : ∀ s, st.inner = some s → cfg.Recorded s := by
    refine EventLoop.inner_invariant (fun inner => ∀ s, inner = some s → cfg.Recorded s)
      (fun inner event input h s' hs' => ?_) (fun s hs => ?_) _ hrun
    · cases inner with
      | none => cases hs'
      | some s => exact (h s rfl).extends (handle_extends hs')
    · obtain rfl := Option.some.inj hs
      exact ⟨rfl, rfl, by simp [arena]⟩
  exact hloop s hinner

/-- The times of the calls for agents. -/
def agentTimes : Option (Arena T) → List T
  | none => []
  | some s => (s.calls.filter (·.agent.isSome)).map (·.timestamp)

variable [IsStrictOrderedRing T]

/-- The calls for agents are made in the order of their times. -/
theorem run_agentTimes
    (hrun : Machine.run cfg.iterate (cfg.start connected draws) actions = some st) :
    (agentTimes st.inner).Pairwise (· ≤ ·) := by
  refine EventLoop.log_sorted agentTimes (fun inner event input => ?_)
    (fun inner event input e he => ?_) ?_ _ hrun
  · cases inner with
    | none => exact ⟨[], by simp [handle, agentTimes], by simp⟩
    | some s =>
      cases hpass : (cfg.handle (some s) event input).1 with
      | none => exact ⟨[], by simp [agentTimes], by simp⟩
      | some s' =>
        obtain ⟨calls, hcalls, -, hnew⟩ := (handle_extends hpass).calls
        refine ⟨(calls.filter (·.agent.isSome)).map (·.timestamp), ?_, fun t ht => ?_⟩
        · rw [agentTimes, agentTimes, hcalls, List.filter_append, List.map_append]
        · obtain ⟨c, hc, rfl⟩ := List.mem_map.mp ht
          obtain ⟨hc, hagent⟩ := List.mem_filter.mp hc
          obtain ⟨id, hid⟩ := Option.isSome_iff_exists.mp hagent
          exact (hnew c hc id hid).2
  · cases inner with
    | none => cases he
    | some s => exact (cfg.schedule.processEvent_pushes _ event input.extra e he).2.2
  · rfl

end ArenaConfig

/-- In every run no quote is closed at a time before it was placed, so the average lifetime that
the report shows is not negative. As in every configuration, the parameters of the market maker and
of the latency arbitrageur are positive. -/
theorem quotes_closed_after_placed [IsStrictOrderedRing T] (cfg : ArenaConfig T)
    (connected : Bool) (draws : Nat → AgentId → LatencyDraw T)
    (actions : List (Event T × ArenaInput T)) (st : EventLoop.State (Option (Arena T)) (Event T))
    (hrun : Machine.run cfg.iterate (cfg.start connected draws) actions = some st)
    (s : Arena T) (hinner : st.inner = some s) :
    (∀ q ∈ s.quotes.quotes, ∀ t, q.cancelTimestamp = some t → q.timestamp ≤ t) ∧
      0 ≤ s.quotes.quoteLifetimeAvg := by
  have hquotes := (ArenaConfig.run_recorded hrun hinner).quotes
  have hsorted := ArenaConfig.run_agentTimes hrun
  rw [hinner] at hsorted
  have htimes : ((QuoteLog.records s.calls).map Prod.fst).Pairwise (· ≤ ·) := by
    rw [QuoteLog.records_eq, List.map_map]
    exact hsorted.sublist (List.filter_sublist.map _)
  have hclosed : ∀ q ∈ s.quotes.quotes, ∀ t, q.cancelTimestamp = some t → q.timestamp ≤ t := by
    rw [hquotes, QuoteLog.foldl_take]
    exact fun q hq => (QuoteLog.closed_after_placed htimes q hq).2.2
  exact ⟨hclosed, QuoteLog.quoteLifetimeAvg_nonneg hclosed⟩

/-- A simulation of two steps. -/
def twoSteps : ArenaConfig ℚ := { oneArena with schedule := ⟨2, 1 / 1000, 1, true⟩ }

/-- The player's order is sent in its first turn and cancelled in the second. -/
def playerCancels : List (Event ℚ × ArenaInput ℚ) :=
  [(⟨0, .midpriceMove, none⟩, oneInput [.marketOrder .bid 5] []),
    (⟨0, .agentAction, some .human⟩, oneInput [] []),
    (⟨1 / 20000, .agentAction, some .latArb⟩, oneInput [] []),
    (⟨1 / 5000, .agentAction, some .mm⟩, oneInput [.whaleBuy true] []),
    (⟨1 / 2000, .metricsSample, none⟩, oneInput [] []),
    (⟨1 / 2000, .agentAction, some .informed⟩, oneInput [] []),
    (⟨1 / 1000, .agentAction, some .human⟩, oneInput [.cancelAll] [])]

/-- The player cancels one of its orders a step after placing it. -/
theorem quotes_closed_after_placed_player : ∃ st s,
    Machine.run twoSteps.iterate (twoSteps.start true fun _ _ => ⟨0, 1⟩) playerCancels = some st ∧
      st.inner = some s ∧ s.quotes.quoteLifetimeAvg = 1 / 1000 ∧ 0 ≤ s.quotes.quoteLifetimeAvg := by
  have hruns : ((Machine.run twoSteps.iterate (twoSteps.start true fun _ _ => ⟨0, 1⟩)
      playerCancels).bind (·.inner)).map (·.quotes.quoteLifetimeAvg) = some (1 / 1000) := by
    decide +kernel
  obtain ⟨s, hs, havg⟩ := Option.map_eq_some_iff.mp hruns
  obtain ⟨st, hrun, hinner⟩ := Option.bind_eq_some_iff.mp hs
  exact ⟨st, s, hrun, hinner, havg,
    (quotes_closed_after_placed twoSteps true (fun _ _ => ⟨0, 1⟩) _ st hrun s hinner).2⟩

/-- As long as no agent has used up its block of ids, the quotes in the metrics are the orders that
the socket has taken, each of them closed when the cancel of that very order was taken; if
all calls were taken, as many quotes are closed as there were cancels. As in every configuration,
the parameters of the market maker and of the latency arbitrageur are positive. -/
theorem quotes_closed_by_own_cancel (cfg : ArenaConfig T) (connected : Bool)
    (draws : Nat → AgentId → LatencyDraw T) (actions : List (Event T × ArenaInput T))
    (st : EventLoop.State (Option (Arena T)) (Event T))
    (hrun : Machine.run cfg.iterate (cfg.start connected draws) actions = some st)
    (s : Arena T) (hinner : st.inner = some s)
    (hblocks : ∀ entry ∈ s.agents, entry.2.base.stats.totalOrdersSent ≤ 1000000) :
    let records := QuoteLog.records s.calls
    s.quotes.quotes = QuoteLog.quotesOf (QuoteLog.cancelTime records) records ∧
      s.quotes.totalOrdersSent = s.quotes.quotes.length ∧
      ((∀ c ∈ s.calls, c.agent.isSome → c.taken) →
        s.quotes.quotes.countP (·.cancelTimestamp.isSome) = s.quotes.totalCancels) := by
  intro records
  have hrecorded := ArenaConfig.run_recorded hrun hinner
  obtain ⟨hcalls, hhanded⟩ : ((s.calls.filter (·.agent.isSome)).map (·.message.entry)).Pairwise
        Tickets.Entry.Before ∧ ((∀ c ∈ s.calls, c.agent.isSome → c.taken) →
      ∀ n ∈ Tickets.cancelled (records.map Prod.snd), n ∈ Tickets.handed (records.map Prod.snd)) := by
    cases connected with
    | true =>
      have horderly := ArenaConfig.run_orderly hrun hinner
      exact ⟨horderly.pairwise_before hrecorded.known hblocks,
        fun htaken n => horderly.handed_records hrecorded.known htaken⟩
    | false =>
      have hnone := (ArenaConfig.run_silent hrun hinner).2
      refine ⟨by simp [hnone], fun _ n hn => ?_⟩
      simp [records, hnone, QuoteLog.records, Tickets.cancelled] at hn
  have hbefore : (records.map Prod.snd).Pairwise Tickets.Entry.Before := by
    rw [show records = _ from QuoteLog.records_eq s.calls, List.map_map]
    exact hcalls.sublist (List.filter_sublist.map _)
  have hquotes : s.quotes = _ :=
    (hrecorded.quotes.trans (QuoteLog.foldl_take _ _)).trans (QuoteLog.foldl_enter hbefore)
  rw [hquotes]
  refine ⟨rfl, ?_, fun htaken => QuoteLog.countP_closed hbefore (hhanded htaken)⟩
  rw [← QuoteLog.ids_quotesOf (QuoteLog.cancelTime records), List.length_map]

/-- The same run seen from the log: one quote, closed by its own cancel. -/
theorem quotes_closed_by_own_cancel_player : ∃ st s,
    Machine.run twoSteps.iterate (twoSteps.start true fun _ _ => ⟨0, 1⟩) playerCancels = some st ∧
      st.inner = some s ∧ s.quotes.totalCancels = 1 ∧
      s.quotes.quotes = QuoteLog.quotesOf (QuoteLog.cancelTime (QuoteLog.records s.calls))
        (QuoteLog.records s.calls) ∧
      s.quotes.quotes.countP (·.cancelTimestamp.isSome) = s.quotes.totalCancels := by
  have hruns : ((Machine.run twoSteps.iterate (twoSteps.start true fun _ _ => ⟨0, 1⟩)
      playerCancels).bind (·.inner)).map (fun s => (s.quotes.totalCancels,
        s.agents.all fun entry => entry.2.base.stats.totalOrdersSent ≤ 1000000,
        s.calls.all fun c => !c.agent.isSome || c.taken)) = some (1, true, true) := by
    decide +kernel
  obtain ⟨s, hs, heq⟩ := Option.map_eq_some_iff.mp hruns
  obtain ⟨st, hrun, hinner⟩ := Option.bind_eq_some_iff.mp hs
  obtain ⟨hcancels, heq⟩ := Prod.mk.inj heq
  obtain ⟨hblocks, htaken⟩ := Prod.mk.inj heq
  obtain ⟨hquotes, -, hclosed⟩ := quotes_closed_by_own_cancel twoSteps true (fun _ _ => ⟨0, 1⟩) _
    st hrun s hinner fun entry hentry => of_decide_eq_true (List.all_eq_true.mp hblocks entry hentry)
  refine ⟨st, s, hrun, hinner, hcancels, hquotes, hclosed fun c hc hagent => ?_⟩
  simpa [hagent] using List.all_eq_true.mp htaken c hc

end LiquidityArena

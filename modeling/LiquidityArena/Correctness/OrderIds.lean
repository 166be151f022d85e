import LiquidityArena.Simulation.Simulator
import LiquidityArena.Lib.Machine

/-!
# When order ids are unique

An agent's ids count up from the start of its block and do not stop at its end, and the
scenario `whale_buy` has an id of its own, inside the first block. So ids are unique
exactly as long as no agent reaches a block that is in use, the whale comes once, and the
first agent stays below its id.
-/

namespace LiquidityArena

/-- The agents created in a process, and the ids of the orders sent to the engine. -/
structure OrderIds where
  agentCounter : Nat := 0
  agents : List BaseAgent := []
  sent : List Int := []

/-- An agent is created, one sends an order with its next id, or the whale buys. -/
inductive IdAction where
  | createAgent (tickSize : ℚ)
  | nextOrderId (agent : Nat)
  | whaleBuy
  deriving DecidableEq

namespace OrderIds

/-- One step; an order of an agent that does not exist is not possible. -/
def step (s : OrderIds) : IdAction → Option OrderIds
  | .createAgent tickSize =>
    let (agent, counter) := BaseAgent.create s.agentCounter tickSize
    some { s with agentCounter := counter, agents := s.agents ++ [agent] }
  | .nextOrderId i =>
    match s.agents[i]? with
    | none => none
    | some agent =>
      let (id, agent') := agent.nextOrderId
      some { s with agents := s.agents.set i agent', sent := s.sent ++ [id] }
  | .whaleBuy => some { s with sent := s.sent ++ [whaleOrder.orderId] }

/-- The numbers of ids drawn and of whales keep the ids apart. -/
def Separate (draws : Nat → Nat) (whales : Nat) : Prop :=
  whales ≤ 1 ∧ (0 < whales → draws 0 < 999999) ∧
    ∀ i j, i < j → 0 < draws j → draws i ≤ (j - i) * 1000000

/-- An id that has been sent, given how many were drawn and how many whales there were. -/
def Taken (draws : Nat → Nat) (whales : Nat) (id : Int) : Prop :=
  (∃ i : Nat, i * 1000000 < id ∧ id ≤ i * 1000000 + draws i) ∨ id = 999999 ∧ 0 < whales

/-- What the state is after so many draws and whales. -/
structure Numbered (draws : Nat → Nat) (whales : Nat) (s : OrderIds) : Prop where
  counter : s.agentCounter = s.agents.length
  next : ∀ (i : Nat) (a : BaseAgent), s.agents[i]? = some a →
    a.nextOrderIdValue = i * 1000000 + 1 + draws i
  absent : ∀ i, s.agents.length ≤ i → draws i = 0
  mem : ∀ id, id ∈ s.sent ↔ Taken draws whales id
  nodup : s.sent.Nodup ↔ Separate draws whales

variable {draws : Nat → Nat} {whales : Nat} {s s' : OrderIds}

private theorem le_update (draws : Nat → Nat) (i j : Nat) :
    draws j ≤ Function.update draws i (draws i + 1) j := by
  by_cases hj : j = i
  · subst hj
    rw [Function.update_self]
    exact Nat.le_succ _
  · rw [Function.update_of_ne hj]

/-- Drawing one more id keeps the ids apart exactly when it has not been sent. -/
theorem separate_draw (i : Nat) : Separate (Function.update draws i (draws i + 1)) whales ↔
    Separate draws whales ∧ ¬ Taken draws whales (i * 1000000 + 1 + draws i) := by
  have hother : ∀ j, j ≠ i → Function.update draws i (draws i + 1) j = draws j :=
    fun j hj => Function.update_of_ne hj _ _
  have hself : Function.update draws i (draws i + 1) i = draws i + 1 := Function.update_self ..
  constructor
  · rintro ⟨hwhales, hfirst, hblocks⟩
    have hmono := le_update draws i
    refine ⟨⟨hwhales, fun hw => (hmono 0).trans_lt (hfirst hw), fun a b hab hb =>
      (hmono a).trans (hblocks a b hab (hb.trans_le (hmono b)))⟩, ?_⟩
    rintro (⟨j, hlow, hhigh⟩ | ⟨hid, hw⟩)
    · rcases lt_trichotomy j i with hlt | rfl | hgt
      · have hle := hblocks j i hlt (hself.symm ▸ Nat.succ_pos _)
        rw [hother j hlt.ne] at hle
        omega
      · omega
      · have hle := hblocks i j hgt (by rw [hother j hgt.ne']; omega)
        rw [hself] at hle
        omega
    · have hzero : i = 0 := by omega
      subst hzero
      have hlt := hfirst hw
      rw [hself] at hlt
      omega
  · rintro ⟨⟨hwhales, hfirst, hblocks⟩, hfree⟩
    refine ⟨hwhales, fun hw => ?_, fun a b hab hb => ?_⟩
    · by_cases hi : 0 = i
      · subst hi
        rw [hself]
        have hne : ¬ ((0 : Nat) * 1000000 + 1 + draws 0 : Int) = 999999 :=
          fun hid => hfree (Or.inr ⟨hid, hw⟩)
        have hlt := hfirst hw
        omega
      · rw [hother 0 hi]
        exact hfirst hw
    · by_cases ha : a = i
      · subst ha
        rw [hother b hab.ne'] at hb
        rw [hself]
        have hle := hblocks a b hab hb
        by_contra hfull
        exact hfree (Or.inl ⟨b, by omega, by omega⟩)
      · rw [hother a ha]
        by_cases hbi : b = i
        · subst hbi
          rcases Nat.eq_zero_or_pos (draws b) with hzero | hpos
          · by_contra hfull
            exact hfree (Or.inl ⟨a, by omega, by omega⟩)
          · exact hblocks a b hab hpos
        · rw [hother b hbi] at hb
          exact hblocks a b hab hb

private theorem separate_whale : Separate draws (whales + 1) ↔
    Separate draws whales ∧ ¬ Taken draws whales 999999 := by
  constructor
  · rintro ⟨hwhales, hfirst, hblocks⟩
    have hlt := hfirst (Nat.succ_pos _)
    refine ⟨⟨by omega, fun _ => hlt, hblocks⟩, ?_⟩
    rintro (⟨j, hlow, hhigh⟩ | ⟨-, hw⟩)
    · have hzero : j = 0 := by omega
      subst hzero
      omega
    · omega
  · rintro ⟨⟨hwhales, hfirst, hblocks⟩, hfree⟩
    have hnone : ¬ 0 < whales := fun hw => hfree (Or.inr ⟨rfl, hw⟩)
    refine ⟨by omega, fun _ => ?_, hblocks⟩
    by_contra hfull
    exact hfree (Or.inl ⟨0, by omega, by omega⟩)

/-- Sending an id that is new keeps the ids apart, and only that. -/
theorem nodup_append_id (sent : List Int) (id : Int) :
    (sent ++ [id]).Nodup ↔ sent.Nodup ∧ id ∉ sent := by
  rw [List.nodup_append_comm, List.singleton_append, List.nodup_cons, and_comm]

private theorem Numbered.createAgent (h : Numbered draws whales s) (tickSize : ℚ)
    (hstep : s.step (.createAgent tickSize) = some s') : Numbered draws whales s' := by
  obtain rfl := Option.some.inj hstep
  refine ⟨?_, fun i a ha => ?_, fun i hi => h.absent i ?_, h.mem, h.nodup⟩
  · rw [List.length_append, ← h.counter]
    rfl
  · rcases lt_or_ge i s.agents.length with hi | hi
    · rw [List.getElem?_append_left hi] at ha
      exact h.next i a ha
    · -- the new agent is the only one at or behind the end
      rw [List.getElem?_append_right hi, List.getElem?_singleton] at ha
      split_ifs at ha with hzero
      obtain rfl := Option.some.inj ha
      have hlast : i = s.agents.length := by omega
      rw [h.absent i hi, hlast, ← h.counter]
      simp [BaseAgent.idBlock]
  · rw [List.length_append] at hi
    omega

private theorem taken_draw (i : Nat) (id : Int) :
    Taken (Function.update draws i (draws i + 1)) whales id ↔
      Taken draws whales id ∨ id = i * 1000000 + 1 + draws i := by
  constructor
  · rintro (⟨j, hlow, hhigh⟩ | hwhale)
    · by_cases hj : j = i
      · subst hj
        rw [Function.update_self] at hhigh
        rcases eq_or_ne id (j * 1000000 + 1 + draws j) with hid | hid
        · exact Or.inr hid
        · exact Or.inl (Or.inl ⟨j, hlow, by omega⟩)
      · rw [Function.update_of_ne hj] at hhigh
        exact Or.inl (Or.inl ⟨j, hlow, hhigh⟩)
    · exact Or.inl (Or.inr hwhale)
  · rintro ((⟨j, hlow, hhigh⟩ | hwhale) | hid)
    · have hle := le_update draws i j
      exact Or.inl ⟨j, hlow, by omega⟩
    · exact Or.inr hwhale
    · refine Or.inl ⟨i, by omega, ?_⟩
      rw [Function.update_self]
      omega

private theorem Numbered.nextOrderId (h : Numbered draws whales s) {i : Nat}
    (hstep : s.step (.nextOrderId i) = some s') :
    Numbered (Function.update draws i (draws i + 1)) whales s' := by
  rw [OrderIds.step] at hstep
  split at hstep
  · cases hstep
  next agent hagent =>
    obtain rfl := Option.some.inj hstep
    have hi : i < s.agents.length := (List.getElem?_eq_some_iff.mp hagent).1
    have hid : agent.nextOrderIdValue = i * 1000000 + 1 + draws i := h.next i agent hagent
    refine ⟨h.counter.trans List.length_set.symm, fun j a ha => ?_, fun j hj => ?_,
      fun id => ?_, ?_⟩
    · rw [List.getElem?_set] at ha
      split_ifs at ha with hj
      · subst hj
        obtain rfl := Option.some.inj ha
        dsimp only
        rw [Function.update_self, hid]
        push_cast
        ring
      · rw [Function.update_of_ne (Ne.symm hj)]
        exact h.next j a ha
    · rw [List.length_set] at hj
      rw [Function.update_of_ne (hi.trans_le hj).ne', h.absent j hj]
    · rw [taken_draw, ← h.mem, ← hid]
      simp
    · rw [separate_draw, ← h.nodup, ← h.mem, ← hid]
      exact nodup_append_id _ _

private theorem Numbered.whaleBuy (h : Numbered draws whales s)
    (hstep : s.step .whaleBuy = some s') :
    Numbered draws (whales + 1) s' := by
  obtain rfl := Option.some.inj hstep
  refine ⟨h.counter, h.next, h.absent, fun id => ?_, ?_⟩
  · rw [List.mem_append, List.mem_singleton, h.mem]
    constructor
    · rintro ((hblock | ⟨hid, -⟩) | hid)
      · exact Or.inl hblock
      · exact Or.inr ⟨hid, Nat.succ_pos _⟩
      · exact Or.inr ⟨hid, Nat.succ_pos _⟩
    · rintro (hblock | ⟨hid, -⟩)
      · exact Or.inl (Or.inl hblock)
      · exact Or.inr hid
  · rw [separate_whale, ← h.nodup, ← h.mem]
    exact nodup_append_id _ _

private theorem Numbered.step (h : Numbered draws whales s) {a : IdAction}
    (hstep : s.step a = some s') :
    Numbered (fun i => draws i + [a].count (.nextOrderId i)) (whales + [a].count .whaleBuy) s' := by
  cases a with
  | createAgent tickSize => simpa using h.createAgent tickSize hstep
  | nextOrderId i =>
    have hdraws : (fun j => draws j + [IdAction.nextOrderId i].count (.nextOrderId j)) =
        Function.update draws i (draws i + 1) := by
      funext j
      by_cases hj : j = i
      · subst hj
        simp
      · rw [Function.update_of_ne hj, List.count_singleton]
        simp [Ne.symm hj]
    rw [hdraws]
    simpa using h.nextOrderId hstep
  | whaleBuy => simpa using h.whaleBuy hstep

private theorem Numbered.run (actions : List IdAction) (h : Numbered draws whales s)
    (hrun : Machine.run OrderIds.step s actions = some s') :
    Numbered (fun i => draws i + actions.count (.nextOrderId i))
      (whales + actions.count .whaleBuy) s' := by
  induction actions generalizing draws whales s with
  | nil =>
    obtain rfl := Option.some.inj hrun
    exact h
  | cons a actions ih =>
    obtain ⟨s₁, hfirst, hrest⟩ := Option.bind_eq_some_iff.mp hrun
    have hafter := ih (h.step hfirst) hrest
    simp only [Nat.add_assoc, ← List.count_append, List.singleton_append] at hafter
    exact hafter

end OrderIds

/-- Ids are unique exactly when there is at most one whale, the first agent stays below its id if
there is one, and no agent draws more ids than fit below the block of a later one that draws. -/
theorem order_ids_nodup_iff (actions : List IdAction) {s : OrderIds}
    (hrun : Machine.run OrderIds.step {} actions = some s) :
    s.sent.Nodup ↔ OrderIds.Separate (fun i => actions.count (.nextOrderId i))
      (actions.count .whaleBuy) := by
  have hstart : OrderIds.Numbered (fun _ => 0) 0 {} :=
    ⟨rfl, by simp, by simp, fun id => ⟨by simp, ?_⟩, by simp [OrderIds.Separate]⟩
  · have hnumbered := hstart.run actions hrun
    simpa only [Nat.zero_add] using hnumbered.nodup
  · rintro (⟨i, hlow, hhigh⟩ | ⟨-, hw⟩)
    · dsimp only at hhigh
      omega
    · omega

/-- Two agents and one whale. -/
theorem order_ids_nodup_one_whale : ∃ s, Machine.run OrderIds.step {}
      [.createAgent (1 / 100), .createAgent (1 / 100), .nextOrderId 1, .nextOrderId 0, .whaleBuy,
        .nextOrderId 0] = some s ∧ s.sent = [1000001, 1, 999999, 2] ∧ s.sent.Nodup := by
  refine ⟨_, rfl, by decide, (order_ids_nodup_iff [.createAgent (1 / 100), .createAgent (1 / 100),
    .nextOrderId 1, .nextOrderId 0, .whaleBuy, .nextOrderId 0] rfl).mpr
    ⟨by decide, by decide, fun i j hij _ => ?_⟩⟩
  have hsix : 6 ≤ (j - i) * 1000000 := by omega
  exact List.count_le_length.trans hsix

/-- The whale has the same id whenever it comes. -/
theorem whale_id_repeated : ∃ s, Machine.run OrderIds.step {} [.whaleBuy, .whaleBuy] = some s ∧
    ¬ s.sent.Nodup :=
  ⟨_, rfl, by decide⟩

end LiquidityArena

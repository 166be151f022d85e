import LiquidityArena.Correctness.QueueFairness
import LiquidityArena.Correctness.Replay
import LiquidityArena.Correctness.Serialization

/-!
# What the clients see of the book

Every client is sent the same stream of snapshots from the moment it connects. When both
threads have nothing left to do, which takes them a number of steps that the queues
determine, the last snapshot that a client was sent is the current book.
-/

namespace LiquidityArena

open MatchingEngine OrderBook

/-- A step that needs no client: both threads work off what is queued. -/
def Action.Internal : Action → Prop
  | .process _ => True
  | .publish => True
  | .consume => True
  | _ => False

/-- The internal steps that the queues call for: a queued command is processed, and its event is
published and consumed. -/
def System.backlog (s : System) : Nat :=
  3 * s.commands.length + 2 * s.pending.toList.length + s.events.length

/-- After the actions every client was sent the snapshots delivered since it connected, and they
are the last ones of every client that connected before it. -/
def System.ClientsAgree (fees : FeeSchedule) (actions : List Action) (s : System) : Prop :=
  ∀ c ∈ s.clients, c.snapshots = snapshotsOf ((init fees).deliveredTo c.conn actions) ∧
    ∀ c' ∈ s.clients, c'.conn ≤ c.conn → c.snapshots <:+ c'.snapshots

/-- If a snapshot was delivered since a client connected, the last one it was sent shows the
current book. -/
def System.ClientsCurrent (fees : FeeSchedule) (actions : List Action) (s : System) : Prop :=
  ∀ c ∈ s.clients, snapshotsOf ((init fees).deliveredTo c.conn actions) ≠ [] →
    ∃ snapshot, c.snapshots.getLast? = some snapshot ∧
      ∀ ord, snapshot = s.engine.getBookSnapshot ord

namespace MatchingEngine

variable {e e' : MatchingEngine} {v : BookView}

/-- A reachable book has one snapshot. -/
theorem getBookSnapshot_congr (h : e.book.Shows v) (hbook : e'.book = e.book)
    (ord ord' : HashOrder) : e.getBookSnapshot ord = e'.getBookSnapshot ord' := by
  rw [getBookSnapshot, getBookSnapshot, hbook, h.getDepth_congr ord ord' true,
    h.getDepth_congr ord ord' false]

/-- The last snapshot that the sequential server emits shows the book it leaves; if it emits none,
the book has not changed. -/
theorem serve_last (h : e.book.Shows v) {cmds : List (HashOrder × Tagged ClientCommand)}
    {events : List (Tagged EngineEvent)} (hserve : e.serve cmds = some (e', events)) :
    (snapshotsOf events = [] ∧ e'.book = e.book) ∨
      ∃ snapshot, (snapshotsOf events).getLast? = some snapshot ∧
        ∀ ord, snapshot = e'.getBookSnapshot ord := by
  induction cmds generalizing e v events with
  | nil =>
    obtain ⟨rfl, rfl⟩ := Prod.mk.inj (Option.some.inj hserve)
    exact Or.inl ⟨rfl, rfl⟩
  | cons c cmds ih =>
    obtain ⟨done, hdone, hrest⟩ := Option.bind_eq_some_iff.mp hserve
    obtain ⟨⟨e₂, later⟩, hserve', heq⟩ := Option.map_eq_some_iff.mp hrest
    obtain ⟨rfl, rfl⟩ := Prod.mk.inj heq
    obtain ⟨e₁, trades, v₁, hprocessed, hcall, h₁, -⟩ := processClientCommand_spec h c.1 c.2.item
    obtain rfl := Option.some.inj (hprocessed.symm.trans hdone)
    have hcons : snapshotsOf (⟨answer c.2.item e.book e₁ c.1, c.2.request⟩ :: later) =
        (answer c.2.item e.book e₁ c.1).payload.snapshot.toList ++ snapshotsOf later := by
      cases hsnapshot : (answer c.2.item e.book e₁ c.1).payload.snapshot <;>
        simp [snapshotsOf, hsnapshot]
    rw [hcons]
    rcases ih h₁ hserve' with ⟨hnone, hbook⟩ | ⟨snapshot, hlast, hcurrent⟩
    · rw [hnone, List.append_nil, answer]
      cases hrefusal : c.2.item.payload.refusal e.book with
      | some msg => exact Or.inl ⟨rfl, hbook.trans (book_of_refusal hrefusal hcall)⟩
      | none => exact Or.inr ⟨_, rfl, fun ord => getBookSnapshot_congr h₁ hbook c.1 ord⟩
    · refine Or.inr ⟨snapshot, ?_, hcurrent⟩
      rw [List.getLast?_append, hlast, Option.some_or]

end MatchingEngine

namespace System

variable {fees : FeeSchedule} {actions : List Action} {s s' : System}

/-- The snapshots of clients are compared as those of one stream since they connected. -/
theorem clientsAgree (hrun : (init fees).run actions = some s) : s.ClientsAgree fees actions := by
  obtain ⟨handled, h⟩ := exists_serialized hrun
  refine fun c hc => ⟨(h.clients c hc).2.2, fun c' hc' hle => ?_⟩
  rw [(h.clients c hc).2.2, (h.clients c' hc').2.2]
  exact (deliveredTo_suffix hrun hle).filterMap _

/-- When every event was delivered, the last snapshot of every client is the current one. -/
theorem clientsCurrent (hrun : (init fees).run actions = some s) (hevents : s.events = [])
    (hpending : s.pending = none) : s.ClientsCurrent fees actions := by
  obtain ⟨handled, h⟩ := exists_serialized hrun
  intro c hc hsent
  have hengine := h.engine
  rw [hevents, hpending, Option.toList_none, List.append_nil, List.append_nil] at hengine
  obtain ⟨front, hfront⟩ : snapshotsOf ((init fees).deliveredTo c.conn actions) <:+
      snapshotsOf ((init fees).delivered actions) :=
    (deliveredTo_suffix_delivered hrun).filterMap _
  rw [(h.clients c hc).2.2]
  rcases MatchingEngine.serve_last OrderBook.shows_init hengine with
    ⟨hnone, -⟩ | ⟨current, hcurrent, hshows⟩
  · rw [hnone, List.append_eq_nil_iff] at hfront
    exact absurd hfront.2 hsent
  · refine ⟨current, ?_, hshows⟩
    rwa [← hfront, List.getLast?_append, List.getLast?_eq_some_getLast hsent, Option.some_or,
      ← List.getLast?_eq_some_getLast hsent] at hcurrent

/-- An internal step takes one off the backlog. -/
theorem backlog_step {a : Action} (ha : a.Internal) (h : s.step a = some s') :
    1 + s'.backlog = s.backlog := by
  cases a with
  | accept sock => exact ha.elim
  | remove idx => exact ha.elim
  | message idx type payload => exact ha.elim
  | consume =>
    obtain ⟨event, events, hevents, rfl⟩ := step_consume h
    simp only [backlog, hevents, List.length_cons]
    omega
  | process ord =>
    obtain ⟨hpending, cmd, commands, e', event, hcommands, -, rfl⟩ := step_process h
    simp only [backlog, hpending, hcommands, List.length_cons, Option.toList_none,
      Option.toList_some, List.length_nil]
    omega
  | publish =>
    obtain ⟨event, hpending, -, rfl⟩ := step_publish h
    simp only [backlog, hpending, List.length_append, List.length_cons, Option.toList_none,
      Option.toList_some, List.length_nil]
    omega

/-- While there is a backlog one of the threads can go on. -/
theorem exists_internal_step {v : BookView} (hshows : s.engine.book.Shows v) (h : 0 < s.backlog) :
    ∃ a s', a.Internal ∧ s.step a = some s' := by
  cases hevents : s.events with
  | cons event events =>
    exact ⟨.consume, _, trivial, by rw [step, hevents]⟩
  | nil =>
    cases hpending : s.pending with
    | some event =>
      refine ⟨.publish, { s with pending := none, events := [event] }, trivial, ?_⟩
      simp [step, hpending, push, hevents, queueCapacity]
    | none =>
      cases hcommands : s.commands with
      | nil => simp [backlog, hevents, hpending, hcommands] at h
      | cons cmd commands =>
        obtain ⟨e', -, -, hprocessed, -⟩ :=
          MatchingEngine.processClientCommand_spec hshows HashOrder.recent cmd.item
        have hsome : (s.step (.process HashOrder.recent)).isSome := by
          simp [step, hpending, hcommands, hprocessed]
        obtain ⟨s', hstep⟩ := Option.isSome_iff_exists.mp hsome
        exact ⟨.process HashOrder.recent, s', trivial, hstep⟩

/-- The engine of a reachable system is well represented. -/
theorem exists_shows (hrun : (init fees).run actions = some s) : ∃ v, s.engine.book.Shows v := by
  obtain ⟨handled, h⟩ := exists_serialized hrun
  obtain ⟨e, v, hengine, hshows, -⟩ := (MatchingEngine.init fees).run_evolves OrderBook.shows_init
    (handled.map fun c => (c.1, c.2.item.payload.call))
  rw [MatchingEngine.run_of_serve OrderBook.shows_init h.engine] at hengine
  exact ⟨v, Option.some.inj hengine ▸ hshows⟩

end System

end LiquidityArena

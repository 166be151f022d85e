import LiquidityArena.Lib.Queueing
import LiquidityArena.View.Observe

/-!
# Nobody is overtaken

Whatever is called, the orders of a level stay in their order while they wait: an order
leaves from anywhere in its queue, and one that enters goes to the back. So what an order
has in front of it was in front of it before, with at least as much remaining.
-/

namespace LiquidityArena

open OrderBook (Better)

/-- The call enters an order with the id: a new order that is accepted, or a modify that is
applied at another price. -/
def EntersOrder (b : OrderBook) (id : OrderId) : Call → Prop
  | .newOrder n => n.id = id ∧ b.Admits n
  | .cancel _ => False
  | .modify id' price qty => id' = id ∧
      ∃ o, b.orderOf id' = some o ∧ 0 < qty ∧ qty ≤ o.remaining ∧ price ≠ o.price

/-- A call of the run enters an order with the id. -/
def MatchingEngine.RunEnters (id : OrderId) (e : MatchingEngine) :
    List (HashOrder × Call) → Prop
  | [] => False
  | (ord, call) :: calls => EntersOrder e.book id call ∨
      ∃ e', e.perform ord call = some e' ∧ RunEnters id e' calls

private theorem Order.Reduced.refl (o : Order) : o.Reduced o :=
  ⟨rfl, rfl, rfl, rfl, rfl, rfl, le_rfl⟩

private theorem Order.Reduced.trans {o o' o'' : Order} (h : o.Reduced o') (h' : o'.Reduced o'') :
    o.Reduced o'' :=
  ⟨h'.id.trans h.id, h'.side.trans h.side, h'.price.trans h.price, h'.type.trans h.type,
    h'.displayQty.trans h.displayQty, h'.hiddenQty.trans h.hiddenQty,
    h'.remaining.trans h.remaining⟩

/-- What may have become of an order in its place. -/
def Order.CameFrom (o' o : Order) : Prop := o.Reduced o'

instance : Std.Refl Order.CameFrom := ⟨Order.Reduced.refl⟩

instance : IsTrans Order Order.CameFrom := ⟨fun _ _ _ h h' => h'.trans h⟩

/-- A queue evolves, and whoever joins it has one of the ids. -/
def QueueEvolves (Joins : OrderId → Prop) (queue queue' : List Order) : Prop :=
  Queueing.Evolves Order.CameFrom (fun o => Joins o.id) queue queue'

private theorem QueueEvolves.trans {Joins : OrderId → Prop} {q q' q'' : List Order}
    (h : QueueEvolves Joins q q') (h' : QueueEvolves Joins q' q'') : QueueEvolves Joins q q'' :=
  Queueing.Evolves.trans (fun hcame hx => by rwa [hcame.id]) h h'

namespace BookView

variable {v v' : BookView} {Joins : OrderId → Prop}

/-- Amending an order that it reduces lets every queue evolve. -/
theorem evolves_amend (orders : List Order) (id : OrderId) {f : Order → Order}
    (hf : ∀ o ∈ orders, o.id = id → o.Reduced (f o)) :
    QueueEvolves Joins orders (amend orders id f) := by
  refine Queueing.Evolves.map _ fun o ho => ?_
  split
  · exact hf o ho ‹_›
  · exact Order.Reduced.refl o

/-- Every primitive change lets every queue evolve. -/
theorem Change.evolves (h : Change (fun o => Joins o.id) v v') (hv : v.Sound) (s : Bool) (t : Int) :
    QueueEvolves Joins (v.level s t) (v'.level s t) := by
  have hat : ∀ {f : Order → Order}, (∀ o, (f o).At s t ↔ o.At s t) →
      ∀ o, decide ((f o).At s t) = decide (o.At s t) :=
    fun hf o => decide_eq_decide.mpr (hf o)
  cases h with
  | @enter o hfits _ _ =>
    have hlevel : (v.enter o).level s t = v.level s t ++ if o.At s t then [o] else [] := by
      simp only [level, BookView.enter, BookView.place, List.filter_append, List.filter_singleton,
        Bool.cond_decide]
    rw [hlevel]
    split
    · exact Queueing.Evolves.join (P := fun x : Order => Joins x.id) hfits _
    · rw [List.append_nil]
      exact Queueing.Evolves.refl _ _
  | @fill m i q _ _ _ hq _ _ =>
    have hfill := hat (f := (·.fill q)) fun o => Order.at_fill o q s t
    have hreduced : ∀ orders id, QueueEvolves Joins orders (amend orders id (·.fill q)) :=
      fun orders id => evolves_amend orders id fun o _ _ => o.reduced_fill hq
    rw [level, level, BookView.fill, filter_amend hfill, filter_amend hfill]
    exact (hreduced _ _).trans (hreduced _ _)
  | drop _ hdrop =>
    rw [level, level, hdrop.orders]
    exact Queueing.Evolves.leave _ (List.filter_sublist.filter _)
  | @shrink o n ho _ hn =>
    have hshrink := hat (f := (·.shrink n)) fun o => Order.at_shrink o n s t
    rw [level, level, BookView.shrink, filter_amend hshrink]
    refine evolves_amend _ _ fun x hx hid => ?_
    rw [hv.eq_of_id (List.mem_filter.mp hx).1 ho hid]
    exact o.reduced_shrink hn

private theorem Changes.evolves (h : Changes (fun o => Joins o.id) v v') (hv : v.Sound) (s : Bool)
    (t : Int) : v'.Sound ∧ QueueEvolves Joins (v.level s t) (v'.level s t) := by
  induction h with
  | refl => exact ⟨hv, Queueing.Evolves.refl _ _⟩
  | tail _ hlast ih => exact ⟨hlast.sound ih.1, ih.2.trans (hlast.evolves ih.1 s t)⟩

/-- A call lets every queue evolve, and only the order it enters joins. -/
theorem Effect.evolves {b : OrderBook} {call : Call} {trades : List (Order × Int)}
    (h : v.Effect call trades v') (hshows : b.Shows v) (s : Bool) (t : Int) :
    QueueEvolves (EntersOrder b · call) (v.level s t) (v'.level s t) := by
  refine ((h.changes hshows.sound ?_).evolves hshows.sound s t).2
  cases call with
  | newOrder n => exact fun hacc => ⟨n.id_order.symm, hshows.admits_iff.mpr hacc⟩
  | cancel id => trivial
  | modify id price qty =>
    intro o ho hid hpos hle hne
    rw [id_reentry]
    exact ⟨hid.symm, o, hshows.orderOf_eq_some_iff.mpr ⟨ho, hid⟩, hpos, hle, hne⟩

end BookView

namespace OrderBook

variable {b b' : OrderBook} {v v' : BookView} {Joins : OrderId → Prop}

/-- An order that did not join has at most as much in front of it as it had. -/
theorem queuedAhead_le (h : b.Shows v) (h' : b'.Shows v') {s : Bool} {t : Int}
    (hevolves : QueueEvolves Joins (b.queueOf s t) (b'.queueOf s t)) {o' : Order}
    (ho' : o' ∈ b'.queueOf s t) (hstays : ¬ Joins o'.id) :
    ∃ o ∈ b.queueOf s t, o.Reduced o' ∧ b'.queuedAhead o' ≤ b.queuedAhead o := by
  rw [h.queueOf, h'.queueOf] at hevolves
  rw [h'.queueOf] at ho'
  obtain ⟨front', back', hqueue'⟩ := List.append_of_mem ho'
  rw [hqueue'] at hevolves
  obtain ⟨front, o, back, hqueue, hcame, hfront⟩ := hevolves.not_overtaken hstays
  have hbefore : ∀ x ∈ front ++ o :: back, x ∈ v.level s t := fun x hx => hqueue ▸ hx
  refine ⟨o, h.queueOf s t ▸ hbefore o (by simp), hcame, ?_⟩
  rw [h.queuedAhead ⟨back, hqueue⟩, h'.queuedAhead ⟨back', hqueue'⟩]
  have hle : List.SublistForall₂ (· ≤ ·) (front'.map Order.remaining)
      (front.map Order.remaining) := by
    rw [List.sublistForall₂_map_left_iff, List.sublistForall₂_map_right_iff]
    refine List.sublistForall₂_iff.mpr ?_
    obtain ⟨kept, hkept, hsub⟩ := List.sublistForall₂_iff.mp hfront
    exact ⟨kept, hkept.imp fun _ _ hred => hred.remaining, hsub⟩
  refine hle.sum_le_sum fun r hr => ?_
  obtain ⟨x, hx, rfl⟩ := List.mem_map.mp hr
  exact h.sound.nonneg x (BookView.mem_level.mp (hbefore x (List.mem_append_left _ hx))).1

end OrderBook

/-- A run lets every queue evolve. -/
theorem MatchingEngine.run_evolves {e : MatchingEngine} {v : BookView} (h : e.book.Shows v)
    (calls : List (HashOrder × Call)) : ∃ e' v', e.run calls = some e' ∧ e'.book.Shows v' ∧
      ∀ s t, QueueEvolves (e.RunEnters · calls) (v.level s t) (v'.level s t) := by
  induction calls generalizing e v with
  | nil => exact ⟨e, v, rfl, h, fun s t => Queueing.Evolves.refl _ _⟩
  | cons c calls ih =>
    obtain ⟨e₁, trades, v₁, hcall, h₁, heffect, -, -⟩ := perform_spec h c.1 c.2
    obtain ⟨e', v', hrun, h', hrest⟩ := ih h₁
    refine ⟨e', v', Option.bind_eq_some_iff.mpr ⟨e₁, hcall, hrun⟩, h', fun s t => ?_⟩
    have hfirst := heffect.evolves h s t
    exact QueueEvolves.trans (hfirst.mono fun x hx => Or.inl hx)
      ((hrest s t).mono fun x hx => Or.inr ⟨e₁, hcall, hx⟩)

/-- In every run, what becomes of a queue are orders that were in it, in their order and with at
most what remained of them, and behind them orders that were entered since. So an order that
was not entered since has at most as much in front of it as it had. -/
theorem run_queues_evolve (fees : FeeSchedule) (before after : List (HashOrder × Call)) :
    ∃ e e', (MatchingEngine.init fees).run before = some e ∧ e.run after = some e' ∧
      ∀ s t, QueueEvolves (e.RunEnters · after) (e.book.queueOf s t) (e'.book.queueOf s t) ∧
        ∀ o' ∈ e'.book.queueOf s t, ¬ e.RunEnters o'.id after →
          ∃ o ∈ e.book.queueOf s t, o.Reduced o' ∧
            e'.book.queuedAhead o' ≤ e.book.queuedAhead o := by
  obtain ⟨e, v, hbefore, h, -⟩ :=
    (MatchingEngine.init fees).run_evolves OrderBook.shows_init before
  obtain ⟨e', v', hafter, h', hevolves⟩ := e.run_evolves h after
  refine ⟨e, e', hbefore, hafter, fun s t => ?_⟩
  have hqueue := hevolves s t
  rw [← h.queueOf, ← h'.queueOf] at hqueue
  exact ⟨hqueue, fun o' ho' hnone => OrderBook.queuedAhead_le h h' hqueue ho' hnone⟩

end LiquidityArena

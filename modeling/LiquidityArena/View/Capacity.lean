import LiquidityArena.View.Sweep

/-!
# Levels with room in their counters

Executions, reductions and removals take the same amount off the counter of a level and off
what remains of its queue. A level therefore has room if its counter would still be a 32-bit
number after all of the queue is gone, and only an order that enters can take this away.
-/

namespace LiquidityArena

namespace BookView

variable {v v' : BookView} {o : Order} {s : Bool} {t x : Int}

/-- The counter and the volume of the level are 32-bit numbers, and the counter will be one
whatever happens to the orders that are queued. -/
structure RoomAt (v : BookView) (s : Bool) (t : Int) : Prop where
  counter : v.total s t < 2 ^ 31
  volume : v.depth Order.remaining s t < 2 ^ 31
  debt : -2 ^ 31 ≤ v.total s t - v.depth Order.remaining s t

/-- All levels have room. -/
def Room (v : BookView) : Prop := ∀ s t, v.RoomAt s t

/-- The empty book has room. -/
theorem room_empty : Room ⟨[], fun _ _ => 0, fun _ => invalidPrice⟩ :=
  fun _ _ => ⟨by norm_num, by norm_num [depth, sumOver], by norm_num [depth, sumOver]⟩

/-- An amount that remains at the level can be taken off its counter. -/
theorem RoomAt.fits (h : v.RoomAt s t) (hx : 0 ≤ x) (hle : x ≤ v.depth Order.remaining s t) :
    FitsInt32 (v.total s t - x) := by
  have hcounter := h.counter
  have hdebt := h.debt
  exact ⟨by omega, by omega⟩

private theorem RoomAt.wrapped (h : v.RoomAt s t) (hv : v.Sound) :
    toInt32 (v.total s t) = v.total s t := by
  have hfits := h.fits le_rfl (hv.sumOver_nonneg _)
  rw [sub_zero] at hfits
  exact toInt32_eq_self hfits.1 hfits.2

/-- The same amount is taken off the counter and off the queue. -/
theorem RoomAt.lower (h : v.RoomAt s t) (hx : 0 ≤ x) (hv' : v'.Sound)
    (hdepth : v'.depth Order.remaining s t = v.depth Order.remaining s t - x)
    (htotal : v'.total s t = toInt32 (v.total s t - x)) : v'.RoomAt s t := by
  have hnonneg : 0 ≤ v'.depth Order.remaining s t := hv'.sumOver_nonneg _
  have hfits := h.fits hx (by omega)
  rw [toInt32_eq_self hfits.1 hfits.2] at htotal
  have hvolume := h.volume
  have hdebt := h.debt
  exact ⟨htotal ▸ hfits.2, by omega, by omega⟩

/-- A level without orders has room. -/
theorem roomAt_of_nil (hnil : v.level s t = []) (htotal : v.total s t = 0) : v.RoomAt s t := by
  have hdepth : v.depth Order.remaining s t = 0 := by
    rw [depth, sumOver, show v.orders.filter (fun o => decide (o.At s t)) = [] from hnil]
    rfl
  exact ⟨by rw [htotal]; norm_num, by rw [hdepth]; norm_num, by rw [htotal, hdepth]; norm_num⟩

/-- The order can enter its level, before anything of it is executed. -/
structure HasRoom (v : BookView) (o : Order) : Prop where
  counter : v.total o.side.isBid o.price + entryDepth o < 2 ^ 31
  volume : v.depth Order.remaining o.side.isBid o.price + o.remaining < 2 ^ 31
  debt : -2 ^ 31 ≤ v.total o.side.isBid o.price + entryDepth o -
    (v.depth Order.remaining o.side.isBid o.price + o.remaining)

/-- What an order that has room counts into its level. -/
theorem HasRoom.fits (h : v.HasRoom o) (hv : v.Sound) (hpos : 0 ≤ o.remaining) :
    FitsInt32 (v.total o.side.isBid o.price + entryDepth o) := by
  have hnonneg : 0 ≤ v.depth Order.remaining o.side.isBid o.price := hv.sumOver_nonneg _
  have hdebt := h.debt
  exact ⟨by omega, h.counter⟩

/-- A book with room for an order keeps its room when the order enters. -/
theorem Room.enter (hroom : v.Room) (h : v.HasRoom o) (hv : v.Sound) (hpos : 0 ≤ o.remaining) :
    (v.enter o).Room := by
  intro s t
  by_cases hat : o.At s t
  · have hfits := h.fits hv hpos
    obtain ⟨rfl, rfl⟩ := hat
    have hdepth : (v.enter o).depth Order.remaining o.side.isBid o.price =
        v.depth Order.remaining o.side.isBid o.price + o.remaining := by
      rw [BookView.enter, depth_place, if_pos ⟨rfl, rfl⟩]
    have htotal : (v.enter o).total o.side.isBid o.price =
        v.total o.side.isBid o.price + entryDepth o := by
      rw [← toInt32_eq_self hfits.1 hfits.2]
      exact if_pos ⟨rfl, rfl⟩
    exact ⟨htotal ▸ h.counter, hdepth ▸ h.volume, by rw [htotal, hdepth]; exact h.debt⟩
  · have hdepth : (v.enter o).depth Order.remaining s t = v.depth Order.remaining s t := by
      rw [BookView.enter, depth_place, if_neg hat, add_zero]
    have htotal : (v.enter o).total s t = v.total s t := if_neg hat
    have hkept := hroom s t
    exact ⟨htotal ▸ hkept.counter, hdepth ▸ hkept.volume, by rw [htotal, hdepth]; exact hkept.debt⟩

/-- Without an order that enters, all levels keep their room. -/
theorem Change.room (h : Change (fun _ => False) v v') (hv : v.Sound) (hroom : v.Room) :
    v'.Room := by
  have hv' := h.sound hv
  intro s t
  have hkept := hroom s t
  have hwrapped := hkept.wrapped hv
  cases h with
  | enter hf _ _ => exact hf.elim
  | @fill m i q hm hi hne hq _ _ =>
    refine hkept.lower (x := (if m.At s t then q else 0) + if i.At s t then q else 0)
      (by split_ifs <;> omega) hv' ?_ ?_
    · rw [depth_fill hv hm hi hne, Order.remaining_fill, Order.remaining_fill]
      split_ifs <;> omega
    · by_cases hmat : m.At s t <;> by_cases hiat : i.At s t <;>
        simp [BookView.fill, hmat, hiat, hwrapped, sub_sub]
  | @drop _ o ho hdrop =>
    by_cases hat : o.At s t
    · by_cases hnil : v'.level s t = []
      · exact roomAt_of_nil hnil (by rw [hdrop.total, if_pos hat, if_pos hnil])
      · refine hkept.lower (hv.nonneg _ ho) hv' ?_ ?_
        · rw [hdrop.depth hv ho, if_pos hat]
        · rw [hdrop.total, if_pos hat, if_neg hnil]
    · refine hkept.lower le_rfl hv' ?_ ?_
      · rw [hdrop.depth hv ho, if_neg hat]
      · rw [hdrop.total, if_neg hat, sub_zero, hwrapped]
  | @shrink o n ho _ hle =>
    refine hkept.lower (x := if o.At s t then o.remaining - n else 0) (by split_ifs <;> omega) hv'
      ?_ ?_
    · rw [depth_shrink hv ho, Order.remaining_shrink]
      split_ifs <;> omega
    · by_cases hat : o.At s t <;> simp [BookView.shrink, hat, hwrapped]

/-- Changes that place nothing keep the room. -/
theorem Changes.room (h : Changes (fun _ => False) v v') (hv : v.Sound) (hroom : v.Room) :
    v'.Room := by
  have hkept := h.invariant (fun w => w.Sound ∧ w.Room)
    (fun hchange hw => ⟨hchange.sound hw.1, hchange.room hw.1 hw.2⟩) ⟨hv, hroom⟩
  exact hkept.2

/-- A drop changes nothing for an order that enters at another price. -/
theorem HasRoom.dropped {price qty : Int} {w : BookView}
    (h : v.HasRoom (reentry o price qty)) (hv : v.Sound) (ho : o ∈ v.orders) (hdrop : v.Dropped o w)
    (hne : price ≠ o.price) : w.HasRoom (reentry o price qty) := by
  have hat : ¬ o.At (reentry o price qty).side.isBid (reentry o price qty).price := by
    rw [price_reentry]
    exact fun hat => hne hat.2.symm
  have htotal := hdrop.total (reentry o price qty).side.isBid (reentry o price qty).price
  rw [if_neg hat] at htotal
  have hdepth := hdrop.depth (w := Order.remaining) (s := (reentry o price qty).side.isBid)
    (t := (reentry o price qty).price) hv ho
  rw [if_neg hat, sub_zero] at hdepth
  exact ⟨htotal ▸ h.counter, hdepth ▸ h.volume, by rw [htotal, hdepth]; exact h.debt⟩

/-- A call whose order finds room, if it enters one, leaves room at all levels. -/
theorem Effect.room {call : Call} {trades : List (Order × Int)} (h : v.Effect call trades v')
    (hv : v.Sound) (hroom : v.Room) (hfits : v.Enters v.HasRoom call) : v'.Room := by
  cases h with
  | refused _ => exact hroom
  | rested hacc _ _ =>
    exact hroom.enter (hfits hacc) hv (by simpa using hacc.valid.quantity_pos.le)
  | @matched n _ w _ i hacc _ hmatched hsettled =>
    have hentered := hroom.enter (hfits hacc) hv (by simpa using hacc.valid.quantity_pos.le)
    have hsound := hv.enter hacc
    have hw := (hmatched.changes hsound _).room hsound hentered
    obtain ⟨hsound', hi⟩ := hmatched.sound hsound (by simp [BookView.enter, place])
    rw [Settled] at hsettled
    split at hsettled
    · exact Change.room (.drop hi hsettled) hsound' hw
    · rwa [hsettled]
  | cancelled ho hdrop => exact Change.room (.drop ho hdrop) hv hroom
  | notFound _ => exact hroom
  | modified ho hpos hle hmod =>
    cases hmod with
    | inPlace _ => exact Change.room (.shrink ho hpos hle) hv hroom
    | moved hne hdrop =>
      have hfound := (hfits _ ho rfl hpos hle hne).dropped hv ho hdrop hne
      have hdropped := Change.room (.drop ho hdrop) hv hroom
      exact hdropped.enter hfound (hdrop.sound hv) (by simpa using hpos.le)
  | unmodified _ => exact hroom

end BookView

end LiquidityArena

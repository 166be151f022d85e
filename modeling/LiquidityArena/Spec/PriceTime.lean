import LiquidityArena.Engine.MatchingEngine

/-!
# Price-time priority as a list

The purpose of the engine, stated without its data structures: the book is the list
of resting limit orders in arrival order. An incoming order trades with the earliest
order of best price on the other side for as long as the prices are compatible, and
what remains of it goes to the end of the list.
-/

namespace LiquidityArena.PriceTime

open OrderBook (Better)

/-- A resting order; `isBid` is its side. -/
structure Entry where
  id : OrderId
  isBid : Bool
  price : Int
  remaining : Int
  deriving DecidableEq, Repr

/-- An execution, at the maker's price. -/
structure Fill where
  makerId : OrderId
  takerId : OrderId
  price : Int
  quantity : Int
  deriving DecidableEq, Repr

/-- The resting orders in arrival order. -/
abbrev Book := List Entry

/-- The earliest order of a side that no order of the side beats in price. -/
def best (book : Book) (isBid : Bool) : Option Entry :=
  book.find? fun m => decide (m.isBid = isBid ∧
    ∀ x ∈ book, x.isBid = isBid → ¬ Better isBid x.price m.price)

/-- Delete the order with an id. -/
def delete (book : Book) (id : OrderId) : Book := book.filter fun x => x.id != id

/-- Replace what remains of the order with an id. -/
def reduce (book : Book) (id : OrderId) (remaining : Int) : Book :=
  book.map fun x => if x.id = id then { x with remaining } else x

/-- The best entry is in the book. -/
theorem mem_of_best {book : Book} {isBid : Bool} {m : Entry} (h : best book isBid = some m) :
    m ∈ book :=
  List.mem_of_find?_eq_some h

/-- Deleting an entry of the book shortens it. -/
theorem length_delete_lt {book : Book} {m : Entry} (h : m ∈ book) :
    (delete book m.id).length < book.length :=
  List.length_filter_lt_length_iff_exists.mpr ⟨m, h, by simp⟩

/-- Trade with the best order of the other side until the taker is filled or no
compatible order is left; returns the fills, the taker and the book without it. -/
def sweep (taker : Entry) (book : Book) : List Fill × Entry × Book :=
  match _ : best book (!taker.isBid) with
  | none => ([], taker, book)
  | some m =>
    if taker.remaining ≤ 0 ∨ Better taker.isBid m.price taker.price then ([], taker, book)
    else
      let quantity := min taker.remaining m.remaining
      let fill : Fill := ⟨m.id, taker.id, m.price, quantity⟩
      let taker' := { taker with remaining := taker.remaining - quantity }
      if m.remaining ≤ taker.remaining then
        let swept := sweep taker' (delete book m.id)
        (fill :: swept.1, swept.2)
      else ([fill], taker', reduce book m.id (m.remaining - quantity))
termination_by book.length
decreasing_by exact length_delete_lt (mem_of_best (by assumption))

section Sweep

variable {taker m : Entry} {book : Book}

/-- The sweep ends when the taker is filled or the best order is missing or incompatible. -/
theorem sweep_stop (h : taker.remaining ≤ 0 ∨ ∀ m, best book (!taker.isBid) = some m →
    Better taker.isBid m.price taker.price) : sweep taker book = ([], taker, book) := by
  rw [sweep]
  split
  · rfl
  · rename_i m hm
    rw [if_pos (h.imp_right fun hall => hall m hm)]

/-- A maker that the taker exhausts is deleted and the sweep goes on. -/
theorem sweep_exhaust (hm : best book (!taker.isBid) = some m) (hpos : 0 < taker.remaining)
    (hcompat : ¬ Better taker.isBid m.price taker.price) (hle : m.remaining ≤ taker.remaining) :
    sweep taker book =
      let swept := sweep { taker with remaining := taker.remaining - m.remaining }
        (delete book m.id)
      (⟨m.id, taker.id, m.price, m.remaining⟩ :: swept.1, swept.2) := by
  rw [sweep]
  split
  · rename_i hnone
    exact absurd (hm.symm.trans hnone) (by simp)
  · rename_i m' hm'
    obtain rfl : m = m' := Option.some.inj (hm.symm.trans hm')
    rw [if_neg (not_or.mpr ⟨not_le.mpr hpos, hcompat⟩), if_pos hle, min_eq_right hle]

/-- A maker with more than the taker asks for fills it. -/
theorem sweep_fill (hm : best book (!taker.isBid) = some m) (hpos : 0 < taker.remaining)
    (hcompat : ¬ Better taker.isBid m.price taker.price) (hlt : taker.remaining < m.remaining) :
    sweep taker book = ([⟨m.id, taker.id, m.price, taker.remaining⟩],
      { taker with remaining := 0 }, reduce book m.id (m.remaining - taker.remaining)) := by
  rw [sweep]
  split
  · rename_i hnone
    exact absurd (hm.symm.trans hnone) (by simp)
  · rename_i m' hm'
    obtain rfl : m = m' := Option.some.inj (hm.symm.trans hm')
    rw [if_neg (not_or.mpr ⟨not_le.mpr hpos, hcompat⟩), if_neg (not_le.mpr hlt),
      min_eq_left hlt.le, sub_self]

end Sweep

/-- A limit order that is accepted trades, and what remains of it rests. -/
def newLimit (book : Book) (id : OrderId) (isBid : Bool) (price quantity : Int) :
    List Fill × Book :=
  if 0 < quantity ∧ 0 < price ∧ (∀ x ∈ book, x.id ≠ id) ∧ book.length < maxOrders then
    let swept := sweep ⟨id, isBid, price, quantity⟩ book
    (swept.1, if 0 < swept.2.1.remaining then swept.2.2 ++ [swept.2.1] else swept.2.2)
  else ([], book)

/-- A modify needs an order of which the new quantity remains. At an unchanged price the
order keeps its place, otherwise it goes to the end. -/
def modify (book : Book) (id : OrderId) (price quantity : Int) : Book :=
  match book.find? fun x => x.id = id with
  | none => book
  | some x =>
    if 0 < quantity ∧ quantity ≤ x.remaining then
      if price = x.price then reduce book id quantity
      else delete book id ++ [{ x with price, remaining := quantity }]
    else book

/-- One call of the engine on the list; a new order is taken as a limit order. -/
def step (book : Book) : Call → List Fill × Book
  | .newOrder n => newLimit book n.id n.side.isBid n.price n.quantity
  | .cancel id => ([], delete book id)
  | .modify id price quantity => ([], modify book id price quantity)

/-- The fills of a sequence of calls and the book it leaves. -/
def run (book : Book) : List Call → List Fill × Book
  | [] => ([], book)
  | call :: calls =>
    let stepped := step book call
    let rest := run stepped.2 calls
    (stepped.1 ++ rest.1, rest.2)

/-- The orders of a level, oldest first. -/
def level (book : Book) (isBid : Bool) (price : Int) : Book :=
  book.filter fun x => x.isBid = isBid ∧ x.price = price

end LiquidityArena.PriceTime

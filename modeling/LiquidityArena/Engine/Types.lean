import Mathlib.Data.Int.Basic
import Mathlib.Tactic

/-!
# Core types of the matching engine

Prices (`Tick`), quantities (`Quantity`) and fees (`Fee`, in 1/10000 ticks) are
integers. The fields of one order never leave their 32-bit range, so they are
plain integers here; the sums that can leave it (level totals and fees) are
wrapped explicitly by `toInt32` and `toInt64`. Enumerators that travel over the
wire keep the bytes that name none of them, because the C++ enumerations do.
-/

namespace LiquidityArena

/-- The id of an order, which the client chooses. -/
abbrev OrderId := Nat

/-- Nanoseconds since epoch. -/
abbrev Timestamp := Nat

/-- A slot of the order pool's storage; the null pointer is `none`. -/
abbrev Ptr := Nat

/-- The value an `int32_t` holds after two's complement wrap-around. -/
def toInt32 (x : Int) : Int := x.bmod (2 ^ 32)

/-- The value an `int64_t` holds after two's complement wrap-around. -/
def toInt64 (x : Int) : Int := x.bmod (2 ^ 64)

@[simp] theorem toInt32_toInt32_add (x y : Int) : toInt32 (toInt32 x + y) = toInt32 (x + y) := by
  simp only [toInt32, Int.bmod_add_bmod]

@[simp] theorem toInt32_toInt32_sub (x y : Int) : toInt32 (toInt32 x - y) = toInt32 (x - y) := by
  simp only [toInt32, Int.bmod_sub_bmod]

@[simp] theorem toInt32_toInt32 (x : Int) : toInt32 (toInt32 x) = toInt32 x := by
  simp only [toInt32, Int.bmod_bmod]

/-- Wrapping the left summand first changes nothing. -/
theorem toInt64_toInt64_add (x y : Int) : toInt64 (toInt64 x + y) = toInt64 (x + y) := by
  simp only [toInt64, Int.bmod_add_bmod]

/-- Wrapping the right summand first changes nothing. -/
theorem toInt64_add_toInt64 (x y : Int) : toInt64 (x + toInt64 y) = toInt64 (x + y) := by
  simp only [toInt64, Int.add_bmod_bmod]

/-- Wrapping before a negation changes nothing. -/
theorem toInt64_neg_toInt64 (x : Int) : toInt64 (-toInt64 x) = toInt64 (-x) := by
  simp only [toInt64, Int.bmod_neg_bmod]

@[simp] theorem toInt32_zero : toInt32 0 = 0 := by decide

/-- A wrapped 32-bit number is below its upper bound. -/
theorem toInt32_lt (x : Int) : toInt32 x < 2 ^ 31 :=
  (Int.bmod_lt (by norm_num)).trans_eq (by norm_num)

/-- Nothing is lost by a value that fits. -/
theorem toInt32_eq_self {x : Int} (hl : -2 ^ 31 ≤ x) (hu : x < 2 ^ 31) : toInt32 x = x :=
  Int.bmod_eq_of_le_mul_two (by norm_num; omega) (by norm_num; omega)

@[inherit_doc toInt32_eq_self]
theorem toInt64_eq_self {x : Int} (hl : -2 ^ 63 ≤ x) (hu : x < 2 ^ 63) : toInt64 x = x :=
  Int.bmod_eq_of_le_mul_two (by norm_num; omega) (by norm_num; omega)

/-- The value is one of an `int32_t`. -/
def FitsInt32 (x : Int) : Prop := -2 ^ 31 ≤ x ∧ x < 2 ^ 31

/-- The value is one of an `int64_t`. -/
def FitsInt64 (x : Int) : Prop := -2 ^ 63 ≤ x ∧ x < 2 ^ 63

/-- A wrapped 32-bit number fits 32 bits. -/
theorem fitsInt32_toInt32 (x : Int) : FitsInt32 (toInt32 x) :=
  ⟨(by norm_num : (-2 ^ 31 : Int) = _).trans_le (Int.le_bmod (by norm_num)), toInt32_lt x⟩

instance (x : Int) : Decidable (FitsInt32 x) := inferInstanceAs (Decidable (_ ∧ _))

instance (x : Int) : Decidable (FitsInt64 x) := inferInstanceAs (Decidable (_ ∧ _))

/-- The side of an order; `raw` is a byte that names neither enumerator. -/
inductive Side where
  | bid
  | ask
  | raw (byte : UInt8)
  deriving DecidableEq, Repr

/-- The comparison `side == Side::BID`, by which the book selects a map. -/
def Side.isBid (side : Side) : Bool := decide (side = .bid)

@[simp] theorem Side.isBid_bid : Side.bid.isBid = true := rfl

@[simp] theorem Side.isBid_ask : Side.ask.isBid = false := rfl

@[simp] theorem Side.isBid_raw (byte : UInt8) : (Side.raw byte).isBid = false := rfl

@[simp] theorem Side.isBid_iff {side : Side} : side.isBid = true ↔ side = .bid := by
  simp [isBid]

/-- The side is one of the two enumerators. -/
def Side.Named (side : Side) : Prop := side = .bid ∨ side = .ask

instance (side : Side) : Decidable side.Named := inferInstanceAs (Decidable (_ ∨ _))

@[simp] theorem Side.named_bid : Side.bid.Named := Or.inl rfl

@[simp] theorem Side.named_ask : Side.ask.Named := Or.inr rfl

/-- The type of an order; `raw` is a byte that names no enumerator. -/
inductive OrderType where
  | limit
  | market
  | iceberg
  | raw (byte : UInt8)
  deriving DecidableEq, Repr

/-- Reason codes for order rejection. -/
inductive RejectReason where
  | invalidParams
  | poolExhausted
  | orderNotFound
  | duplicateId
  | invalidModify
  deriving DecidableEq, Repr

/-- The largest value of a `Tick`. -/
def maxPrice : Int := 2 ^ 63 - 1

/-- The smallest value of a `Tick`. -/
def minPrice : Int := -2 ^ 63

/-- The sentinel of an empty side: the smallest value of a `Tick`. -/
def invalidPrice : Int := minPrice

/-- The id that no order should have. -/
def invalidOrder : OrderId := 0

/-- A valid price is above the sentinel. -/
theorem invalidPrice_lt_of_pos {price : Int} (h : 0 < price) : invalidPrice < price := by
  simp only [invalidPrice, minPrice]
  omega

/-- Maker/taker fee model, in basis points. -/
structure FeeSchedule where
  makerRebateBps : Int := 2
  takerFeeBps : Int := 3
  deriving DecidableEq, Repr

/-- The maker's rebate for one fill. -/
def FeeSchedule.makerRebate (fees : FeeSchedule) (price : Int) (qty : Int) : Int :=
  toInt64 (price * qty * fees.makerRebateBps)

/-- The taker's fee for one fill. -/
def FeeSchedule.takerFee (fees : FeeSchedule) (price : Int) (qty : Int) : Int :=
  toInt64 (price * qty * fees.takerFeeBps)

/-- A single order of the book, with its intrusive list pointers. -/
structure Order where
  id : OrderId := invalidOrder
  price : Int := invalidPrice
  quantity : Int := 0
  filledQuantity : Int := 0
  side : Side := .bid
  type : OrderType := .limit
  timestamp : Timestamp := 0
  /-- For icebergs, the visible portion shown to the market. -/
  displayQty : Int := 0
  /-- For icebergs, the hidden reserve. -/
  hiddenQty : Int := 0
  prev : Option Ptr := none
  next : Option Ptr := none
  deriving DecidableEq, Repr

instance : Inhabited Order := ⟨{}⟩

namespace Order

/-- Remaining quantity available to fill. -/
def remaining (o : Order) : Int := o.quantity - o.filledQuantity

/-- Visible remaining quantity: for icebergs, only the display slice. -/
def visibleRemaining (o : Order) : Int :=
  if o.type = .iceberg ∧ 0 < o.displayQty then
    if o.remaining < o.displayQty then o.remaining else o.displayQty
  else o.remaining

/-- Whether this order has been fully filled. -/
def isFilled (o : Order) : Bool := decide (o.filledQuantity ≥ o.quantity)

/-- Whether this is an iceberg order with hidden quantity remaining. -/
def hasHiddenQty (o : Order) : Bool := decide (o.type = .iceberg ∧ o.hiddenQty > 0)

/-- The order after an execution of `q`. -/
def fill (o : Order) (q : Int) : Order :=
  { o with filledQuantity := o.filledQuantity + q }

/-- The order without its list pointers: what the book says about it. -/
def unlink (o : Order) : Order := { o with prev := none, next := none }

@[simp] theorem unlink_unlink (o : Order) : o.unlink.unlink = o.unlink := rfl

@[simp] theorem id_unlink (o : Order) : o.unlink.id = o.id := rfl

@[simp] theorem side_unlink (o : Order) : o.unlink.side = o.side := rfl

@[simp] theorem price_unlink (o : Order) : o.unlink.price = o.price := rfl

@[simp] theorem type_unlink (o : Order) : o.unlink.type = o.type := rfl

@[simp] theorem displayQty_unlink (o : Order) : o.unlink.displayQty = o.displayQty := rfl

@[simp] theorem remaining_unlink (o : Order) : o.unlink.remaining = o.remaining := rfl

/-- An order is filled exactly when nothing remains of it. -/
theorem isFilled_iff (o : Order) : o.isFilled = true ↔ o.remaining ≤ 0 := by
  simp only [isFilled, remaining, decide_eq_true_eq]
  omega

end Order

end LiquidityArena

/-
  QueryPlanner.Number

  The numbers that sizes, selectivities and costs are computed with.

  Every estimator of the planner is written once, over `Number`, and is read
  at two instances: machine doubles, which is how plans are costed when the
  planner runs, and exact rationals, at which the laws of the estimators are
  the laws of arithmetic.  Only the operations listed here are used, so an
  instance fixes the meaning of every estimate.
-/

namespace QueryPlanner

/-- The arithmetic an estimate is computed with.

Comparisons are those of the number line; a value that is not comparable with
itself is not a number.  `=` is identity of representation. -/
class Number (α : Type) extends Add α, Sub α, Mul α, Div α, Neg α, LT α, LE α where
  decLt : DecidableLT α
  decLe : DecidableLE α
  decEq : DecidableEq α
  /-- The nearest value to an integer. -/
  ofInt : Int → α
  /-- The nearest value to `m / 10 ^ k`. -/
  ofDecimal : Nat → Nat → α
  floor : α → α
  ceil : α → α
  /-- The nearest whole value, halves away from zero. -/
  round : α → α
  log2 : α → α
  /-- The whole part, `0` below zero. -/
  toNat : α → Nat

instance Number.decidableLT {α : Type} [Number α] : DecidableLT α := Number.decLt
instance Number.decidableLE {α : Type} [Number α] : DecidableLE α := Number.decLe
instance Number.decidableEq {α : Type} [Number α] : DecidableEq α := Number.decEq

namespace Number

instance (priority := low) instOfNat {α : Type} [Number α] (n : Nat) : OfNat α n :=
  ⟨ofInt n⟩

instance (priority := low) instOfScientific {α : Type} [Number α] : OfScientific α :=
  ⟨fun m below e => if below then ofDecimal m e else ofInt (m * Nat.pow 10 e : Nat)⟩

variable {α : Type} [Number α]

/-- Not comparable, not even with itself. -/
def isNaN (a : α) : Bool := !decide (a ≤ a)

/-- Equal as values of the number line. -/
def equal (a b : α) : Bool := decide (a ≤ b) && decide (b ≤ a)

/-- How `a` lies to `b`, if they are comparable. -/
def compare? (a b : α) : Option Ordering :=
  if a < b then some .lt
  else if equal a b then some .eq
  else if b < a then some .gt
  else none

/-- The smaller of two values; a value that is no number gives way to the other. -/
protected def min (a b : α) : α :=
  if a ≤ a then (if b < a then b else a) else b

/-- The larger of two values; a value that is no number gives way to the other. -/
protected def max (a b : α) : α :=
  if a ≤ a then (if a < b then b else a) else b

/-- The value moved into `[lo, hi]`. -/
def clamp (lo hi x : α) : α :=
  if x < lo then lo else if hi < x then hi else x

/-- Left to right sum. -/
def sum (xs : List α) : α := xs.foldl (· + ·) 0

/-- A count as a number. -/
def ofNat (n : Nat) : α := ofInt n

end Number

/-- Machine doubles. -/
instance : Number Float where
  decLt := inferInstance
  decLe := inferInstance
  decEq := inferInstance
  ofInt := Float.ofInt
  ofDecimal m k := OfScientific.ofScientific m true k
  floor := Float.floor
  ceil := Float.ceil
  round := Float.round
  log2 := Float.log2
  toNat x := x.toUInt64.toNat

/-- Exact rationals, with a logarithm of the reader's choice. -/
@[reducible] def Number.rational (log2 : Rat → Rat) : Number Rat where
  decLt := inferInstance
  decLe := inferInstance
  decEq := inferInstance
  ofInt n := n
  ofDecimal m k := (m : Rat) / (Nat.pow 10 k : Rat)
  floor x := x.floor
  ceil x := x.ceil
  round x := if 0 ≤ x then (x + 1 / 2).floor else -(-x + 1 / 2).floor
  log2 := log2
  toNat x := x.floor.toNat

end QueryPlanner

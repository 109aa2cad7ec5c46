import Resolvent.Number.Double

/-!
# Numbers to search in

A search for roots computes with numbers of which some are undefined: a function has no value
there.  `Continuum` lists the operations it needs, so that the search can be read over doubles,
which it runs on, and over an ordered field with exact arithmetic.  Comparisons with an undefined
number fail.
-/

namespace Resolvent

/-- Numbers with an order, of which some may be undefined or infinite. -/
class Continuum (α : Type) where
  /-- The sum. -/
  add : α → α → α
  /-- The difference. -/
  sub : α → α → α
  /-- The product. -/
  mul : α → α → α
  /-- The quotient. -/
  div : α → α → α
  /-- The opposite. -/
  neg : α → α
  /-- The distance from zero. -/
  abs : α → α
  /-- The order, strict. -/
  lt : α → α → Bool
  /-- The order. -/
  le : α → α → Bool
  /-- Equality of numbers. -/
  eq : α → α → Bool
  /-- The number is none. -/
  isUndefined : α → Bool
  /-- The number is a finite one. -/
  isFinite : α → Bool
  /-- The number has a minus sign. -/
  isNegative : α → Bool
  /-- A natural number. -/
  ofNat : Nat → α
  /-- The number `m · 10 ^ -k`. -/
  decimal : (m k : Nat) → α
  /-- The relative distance of neighbouring numbers. -/
  epsilon : α
  /-- A length below which no interval is refined. -/
  tiny : α
  /-- The ratio of the golden section. -/
  golden : α

namespace Continuum

variable {α : Type} [Continuum α]

/-- Zero. -/
def zero : α := ofNat 0

/-- The larger of two numbers; an undefined one does not count. -/
def larger (x y : α) : α :=
  if isUndefined x then y else if isUndefined y then x else if lt x y then y else x

/-- The smaller of two numbers; an undefined one does not count. -/
def smaller (x y : α) : α :=
  if isUndefined x then y else if isUndefined y then x else if lt y x then y else x

/-- Doubles. -/
instance : Continuum Float where
  add x y := x + y
  sub x y := x - y
  mul x y := x * y
  div x y := x / y
  neg x := -x
  abs x := x.abs
  lt x y := x < y
  le x y := x <= y
  eq x y := x == y
  isUndefined x := x.isNaN
  isFinite x := x.isFinite
  isNegative x := decide (Double.signBit ≤ x.toBits.toNat)
  ofNat n := n.toFloat
  decimal m k := Double.nearest (mkRat m (Nat.pow 10 k))
  epsilon := Double.nearest (mkRat 1 4503599627370496)
  tiny := Double.ofSignedBits false 2305843009213693952
  golden := ((5.0 : Float).sqrt - 1.0) / 2.0

end Continuum

end Resolvent

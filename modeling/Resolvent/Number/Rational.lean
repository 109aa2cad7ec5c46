import Resolvent.Number.Width

/-!
# Exact rational numbers

The coefficients of canonical forms and the fractions of expressions are rational numbers of any
size, in lowest terms with a positive denominator.  The partial operations answer `none` where
they have no value: a quotient by zero, a negative power of zero.
-/

namespace Resolvent.Rational

/-- The quotient of two whole numbers. -/
def ofQuotient? (n d : Int) : Option Rat := if d = 0 then none else some (Rat.divInt n d)

/-- The quotient of two rational numbers. -/
def divide? (a b : Rat) : Option Rat := if b = 0 then none else some (a / b)

/-- The reciprocal of a rational number. -/
def inverse? (q : Rat) : Option Rat := if q = 0 then none else some q⁻¹

/-- The number is whole. -/
def isInteger (q : Rat) : Bool := q.den == 1

/-- The whole number a rational number is. -/
def toInteger? (q : Rat) : Option Int := if q.den = 1 then some q.num else none

/-- The whole number a rational number is, when it fits a word of 64 bits. -/
def toInt64? (q : Rat) : Option Int := (toInteger? q).filter Width.isInt64

/-- The distance from zero. -/
def magnitude (q : Rat) : Rat := if q < 0 then -q else q

/-- The sign: -1, 0 or 1. -/
def signum (q : Rat) : Int := if q < 0 then -1 else if q = 0 then 0 else 1

/-- The power with a whole exponent. -/
def power? (q : Rat) (k : Int) : Option Rat :=
  if k < 0 then inverse? (Rat.pow q k.natAbs) else some (Rat.pow q k.natAbs)

/-- The order of the rational line. -/
def order (a b : Rat) : Ordering := if a < b then .lt else if a = b then .eq else .gt

/-- The numerator alone when the number is whole, numerator and denominator otherwise. -/
def text (q : Rat) : String :=
  if q.den = 1 then toString q.num else toString q.num ++ "/" ++ toString q.den

/-- The least common denominator of numbers, if it has at most 128 bits. -/
def commonDenominator? (qs : List Rat) : Option Nat :=
  qs.foldlM (fun (d : Nat) q =>
    let next := d * (q.den / Nat.gcd d q.den)
    if Width.isNat128 q.den && Width.isNat128 next then some next else none) 1

theorem toInteger?_eq_some_iff {q : Rat} {n : Int} :
    toInteger? q = some n ↔ q.den = 1 ∧ q.num = n := by
  simp [toInteger?]

theorem magnitude_of_nonneg {q : Rat} (h : ¬ q < 0) : magnitude q = q := by
  simp [magnitude, h]

end Resolvent.Rational

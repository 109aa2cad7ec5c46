/-!
# Doubles and exact numbers

A finite double is a whole significand times a power of two (`Double.parts`).  In the other
direction `nearestBits` finds the double nearest to a fraction of natural numbers, a tie going to
the even significand, in exact arithmetic; `ofRational` is the quotient of the doubles nearest to
numerator and denominator, which is how exact numbers enter floating-point computations.
-/

namespace Resolvent.Double

/-- The number of significands of one binade, `2 ^ 52`. -/
def hiddenBit : Nat := 4503599627370496

/-- The encoding of infinity. -/
def infinityBits : Nat := 9218868437227405312

/-- The weight of the sign bit. -/
def signBit : Nat := 9223372036854775808

/-- A finite double in whole numbers: `significand · 2 ^ exponent`, with a sign. -/
structure Parts where
  /-- The sign bit. -/
  negative : Bool
  /-- The significand, hidden bit included. -/
  significand : Nat
  /-- The exponent of the unit of the significand. -/
  exponent : Int
  deriving DecidableEq, Repr

/-- The sign, significand and exponent of a finite double. -/
def parts (x : Float) : Parts :=
  let bits := x.toBits.toNat
  let field := bits / hiddenBit % 2048
  let rest := bits % hiddenBit
  { negative := signBit ≤ bits
    significand := if field = 0 then rest else rest + hiddenBit
    exponent := if field = 0 then -1074 else (field : Int) - 1075 }

/-- The absolute value of a finite double as a fraction. -/
def Parts.fraction (p : Parts) : Nat × Nat :=
  (p.significand <<< p.exponent.toNat, 1 <<< (-p.exponent).toNat)

/-- The quotient rounded to the nearest whole number, a tie to the even one. -/
def roundQuotient (n d : Nat) : Nat :=
  let q := n / d
  let r := n % d
  if 2 * r < d then q else if d < 2 * r then q + 1 else q + q % 2

/-- The exponent of the unit in the last place of the double nearest to `n / d`, unless rounding
carries into the next binade. -/
def unitExponent (n d : Nat) : Int :=
  let estimate : Int := (n.log2 : Int) - d.log2 - 53
  let low := if estimate < -1074 then -1074 else estimate
  if 2 * hiddenBit ≤ (n <<< (-low).toNat) / (d <<< low.toNat) then low + 1 else low

/-- The encoding of the double nearest to `n / d`: the rounded significand counts up from the
first one of its binade, and a carry leads into the next. -/
def nearestBits (n d : Nat) : Nat :=
  if n = 0 then 0
  else
    let e := unitExponent n d
    let bits := roundQuotient (n <<< (-e).toNat) (d <<< e.toNat) + (e + 1074).toNat * hiddenBit
    if infinityBits < bits then infinityBits else bits

/-- The double with a given encoding and sign. -/
def ofSignedBits (negative : Bool) (bits : Nat) : Float :=
  Float.ofBits (UInt64.ofNat (if negative then bits + signBit else bits))

/-- The double nearest to `±n / d`. -/
def ofFraction (negative : Bool) (n d : Nat) : Float := ofSignedBits negative (nearestBits n d)

/-- The double nearest to a rational number. -/
def nearest (q : Rat) : Float := ofFraction (q.num < 0) q.num.natAbs q.den

/-- The double nearest to a whole number. -/
def ofInteger (n : Int) : Float := ofFraction (n < 0) n.natAbs 1

/-- The quotient of the doubles nearest to numerator and denominator. -/
def ofRational (q : Rat) : Float := ofInteger q.num / ofInteger q.den

/-- The exact value of a finite double. -/
def toRational (x : Float) : Rat :=
  let p := parts x
  let (n, d) := p.fraction
  mkRat (if p.negative then -(n : Int) else (n : Int)) d

/-- The place of a double in the total order, in which the negative zero stands before the positive
one. -/
def rank (x : Float) : Int :=
  let bits := x.toBits.toNat
  if signBit ≤ bits then (signBit : Int) - bits - 1 else bits

/-- Infinity. -/
def infinity : Float := ofSignedBits false infinityBits

/-- The number that is none. -/
def nan : Float := 0.0 / 0.0

theorem roundQuotient_one (n : Nat) : roundQuotient n 1 = n := by
  simp [roundQuotient, Nat.mod_one]

theorem nearestBits_le (n d : Nat) : nearestBits n d ≤ infinityBits := by
  unfold nearestBits
  split
  · exact Nat.zero_le _
  · dsimp only
    split <;> omega

end Resolvent.Double

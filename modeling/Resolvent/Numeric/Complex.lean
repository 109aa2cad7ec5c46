import Resolvent.Number.Digits

/-!
# Complex numbers in doubles

A complex number as a pair of doubles, with the usual closed formulas for its functions.  Each
formula fixes the order of the operations on doubles, since rounding makes them depend on it.

A complex number is rounded part by part to a number of significant digits.  A part that is
negligible next to the modulus is roundoff and becomes zero.
-/

namespace Resolvent

/-- The hypotenuse over legs of which the first is no shorter, and whose squares are in the range of
doubles: the root of the sum of the squares, and a correction for its rounding by the remainder
`h ^ 2 - a ^ 2 - b ^ 2`, which is computed from the difference of the hypotenuse and one leg. -/
def Double.hypotenuseOver (a b : Float) : Float :=
  let h := (a * a + b * b).sqrt
  if h <= 2.0 * b then
    let d := h - b
    h - (a * (2.0 * d - a) + (d - 2.0 * (a - b)) * d) / (2.0 * h)
  else
    let d := h - a
    h - (2.0 * d * (a - 2.0 * b) + ((4.0 * d - b) * b + d * d)) / (2.0 * h)

/-- The length of the vector `(x, y)`, without overflow on the way: legs that are very long or very
short are scaled by a power of two, and a leg that is too short beside the other to matter is only
added. -/
def Double.hypotenuse (x y : Float) : Float :=
  if x.isInf || y.isInf then 1.0 / 0.0
  else
    let a := if x.abs < y.abs then y.abs else x.abs
    let b := if x.abs < y.abs then x.abs else y.abs
    if b <= a.scaleB (-54) then a + b
    else if a > (1.0 : Float).scaleB 511 then
      (hypotenuseOver (a.scaleB (-600)) (b.scaleB (-600))).scaleB 600
    else if b < (1.0 : Float).scaleB (-459) then
      (hypotenuseOver (a.scaleB 600) (b.scaleB 600)).scaleB (-600)
    else hypotenuseOver a b

/-- A double without a fractional part. -/
def Double.isWhole (x : Float) : Bool := x.isFinite && x.floor == x

/-- A complex number. -/
structure Complex where
  /-- The real part. -/
  re : Float
  /-- The imaginary part. -/
  im : Float

namespace Complex

/-- A real number. -/
def ofReal (x : Float) : Complex := ⟨x, 0.0⟩

/-- Zero. -/
def zero : Complex := ⟨0.0, 0.0⟩

/-- One. -/
def one : Complex := ⟨1.0, 0.0⟩

/-- The imaginary unit. -/
def i : Complex := ⟨0.0, 1.0⟩

/-- The number that is none. -/
def nan : Complex := ⟨0.0 / 0.0, 0.0 / 0.0⟩

/-- The sum. -/
def add (z w : Complex) : Complex := ⟨z.re + w.re, z.im + w.im⟩

/-- The difference. -/
def sub (z w : Complex) : Complex := ⟨z.re - w.re, z.im - w.im⟩

/-- The opposite. -/
def neg (z : Complex) : Complex := ⟨-z.re, -z.im⟩

/-- The product. -/
def mul (z w : Complex) : Complex := ⟨z.re * w.re - z.im * w.im, z.re * w.im + z.im * w.re⟩

/-- The quotient. -/
def div (z w : Complex) : Complex :=
  let n := w.re * w.re + w.im * w.im
  ⟨(z.re * w.re + z.im * w.im) / n, (z.im * w.re - z.re * w.im) / n⟩

/-- The inverse. -/
def inv (z : Complex) : Complex :=
  let n := z.re * z.re + z.im * z.im
  ⟨z.re / n, -z.im / n⟩

/-- The product with a real number. -/
def scale (z : Complex) (x : Float) : Complex := ⟨z.re * x, z.im * x⟩

/-- The quotient by a real number. -/
def unscale (z : Complex) (x : Float) : Complex := ⟨z.re / x, z.im / x⟩

/-- The conjugate. -/
def conj (z : Complex) : Complex := ⟨z.re, -z.im⟩

/-- The modulus. -/
def norm (z : Complex) : Float := Double.hypotenuse z.re z.im

/-- The argument. -/
def arg (z : Complex) : Float := Float.atan2 z.im z.re

/-- Both parts are zero. -/
def isZero (z : Complex) : Bool := z.re == 0.0 && z.im == 0.0

/-- Both parts are finite. -/
def isFinite (z : Complex) : Bool := z.re.isFinite && z.im.isFinite

/-- Equality of both parts. -/
def equals (z w : Complex) : Bool := z.re == w.re && z.im == w.im

/-- The number with a modulus and an argument. -/
def ofPolar (r t : Float) : Complex := ⟨r * t.cos, r * t.sin⟩

/-- Multiplies the squares `z ^ 2`, `z ^ 4`, … that belong to the binary digits of an exponent to a
product. -/
def powerLoop : Nat → Complex → Complex → Nat → Complex
  | 0, _, product, _ => product
  | fuel + 1, square, product, n =>
    if n ≤ 1 then product
    else
      let square := mul square square
      let n := n / 2
      powerLoop fuel square (if n % 2 = 1 then mul product square else product) n

/-- Squares as long as the exponent is even, then multiplies the squares that remain. -/
def powerEven : Nat → Complex → Nat → Complex
  | 0, z, _ => z
  | fuel + 1, z, n => if n % 2 = 0 then powerEven fuel (mul z z) (n / 2) else powerLoop n z z n

/-- The power with a natural exponent. -/
def powNat (z : Complex) (n : Nat) : Complex := if n = 0 then one else powerEven n z n

/-- The power with a whole exponent. -/
def powInt (z : Complex) (k : Int) : Complex :=
  if k < 0 then powNat (inv z) k.natAbs else powNat z k.natAbs

/-- The principal logarithm. -/
def ln (z : Complex) : Complex := ⟨z.norm.log, z.arg⟩

/-- The exponential function at an infinite real part: zero, or infinite where the direction is that
of the real line or unknown. -/
def expInfinite (z : Complex) : Complex :=
  if z.re < 0.0 then if z.im.isFinite then ofPolar 0.0 z.im else zero
  else if z.im == 0.0 then z
  else if z.im.isFinite then ofPolar z.re z.im
  else ⟨z.re, 0.0 / 0.0⟩

/-- The exponential function.  On the real line it stays there, also where it is none. -/
def exp (z : Complex) : Complex :=
  if z.re.isInf then expInfinite z
  else if z.re.isNaN && z.im == 0.0 then z
  else ofPolar z.re.exp z.im

/-- The principal power with a real exponent. -/
def powReal (z : Complex) (x : Float) : Complex :=
  if x == 0.0 then one else ofPolar (z.norm.pow x) (z.arg * x)

/-- The principal power with a complex exponent. -/
def pow (z w : Complex) : Complex := if w.isZero then one else exp (mul w (ln z))

/-- The sign bit of a double is set. -/
def isSignNegative (x : Float) : Bool := decide (9223372036854775808 ≤ x.toBits.toNat)

/-- The principal square root. -/
def sqrt (z : Complex) : Complex :=
  if z.im == 0.0 then
    if isSignNegative z.re then
      let r := (-z.re).sqrt
      ⟨0.0, if isSignNegative z.im then -r else r⟩
    else ⟨z.re.sqrt, z.im⟩
  else if z.re == 0.0 then
    let x := (z.im.abs / 2.0).sqrt
    ⟨x, if isSignNegative z.im then -x else x⟩
  else ofPolar z.norm.sqrt (z.arg / 2.0)

/-- The principal cube root. -/
def cbrt (z : Complex) : Complex :=
  if z.im == 0.0 then
    if isSignNegative z.re then
      let r := (-z.re).cbrt / 2.0
      let y := (3.0 : Float).sqrt * r
      ⟨r, if isSignNegative z.im then -y else y⟩
    else ⟨z.re.cbrt, z.im⟩
  else if z.re == 0.0 then
    let m := z.im.abs.cbrt / 2.0
    let x := (3.0 : Float).sqrt * m
    ⟨x, if isSignNegative z.im then -m else m⟩
  else ofPolar z.norm.cbrt (z.arg / 3.0)

/-- The sine. -/
def sin (z : Complex) : Complex := ⟨z.re.sin * z.im.cosh, z.re.cos * z.im.sinh⟩

/-- The cosine. -/
def cos (z : Complex) : Complex := ⟨z.re.cos * z.im.cosh, -z.re.sin * z.im.sinh⟩

/-- The tangent. -/
def tan (z : Complex) : Complex :=
  let a := z.re + z.re
  let b := z.im + z.im
  unscale ⟨a.sin, b.sinh⟩ (a.cos + b.cosh)

/-- The principal inverse sine. -/
def asin (z : Complex) : Complex :=
  mul (neg i) (ln (add (sqrt (sub one (mul z z))) (mul i z)))

/-- The principal inverse cosine. -/
def acos (z : Complex) : Complex :=
  mul (neg i) (ln (add (mul i (sqrt (sub one (mul z z)))) z))

/-- The principal inverse tangent; it is infinite at `i` and `-i`. -/
def atan (z : Complex) : Complex :=
  if equals z i then ⟨0.0, 1.0 / 0.0⟩
  else if equals z (neg i) then ⟨0.0, -1.0 / 0.0⟩
  else
    div (sub (ln (add one (mul i z))) (ln (sub one (mul i z)))) (mul (add one one) i)

/-- The sum of a list, from the left, starting with zero. -/
def sum (zs : List Complex) : Complex := zs.foldl add zero

/-- The product of a list, from the left, starting with one. -/
def product (zs : List Complex) : Complex := zs.foldl mul one

/-! ### Rounding -/

/-- A part of a number, zero if it is at most `10 ^ -12` of the modulus. -/
def chop (norm part : Float) : Float := if part.abs <= norm * 1e-12 then 0.0 else part

/-- Rounds both parts to a number of significant digits. -/
def round (z : Complex) (digits : Nat) : Complex :=
  let norm := z.norm
  ⟨Double.roundSignificant (chop norm z.re) digits,
    Double.roundSignificant (chop norm z.im) digits⟩

end Complex

end Resolvent

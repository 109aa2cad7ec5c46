import Resolvent.Form.Plain
import Resolvent.Form.Radical
import Resolvent.Number.Digits

/-!
# Exact results in a format

`Form.display` writes a form for the user.  Under the real and the cartesian format that is
`re + im𝐢`, under the polar format `rℯ^(θ𝐢)` where the argument `θ` is a simple fraction of `π`.
`Complex.display` does the same for a complex number in doubles.
-/

namespace Resolvent

namespace Form

/-- The part of a sum that has the imaginary unit, with its sign in front. -/
def imaginaryExpression (im : Form) : Expression :=
  let negative := (im.singleTerm?.any fun t => decide (t.2 < 0))
  let magnitude := if negative then neg im else im
  let unit := Expression.constant .imaginaryUnit
  let e := if magnitude.isOne then unit else Expression.productOf [magnitude.expression, unit]
  if negative then .opposite e else e

/-- A form as real and imaginary part, where it splits. -/
def cartesian (f : Form) : Expression :=
  match f.splitComplex? with
  | none => f.expression
  | some (re, im) =>
    if im.isZero then f.expression
    else if re.isZero then im.imaginaryExpression
    else Expression.sumOf [re.expression, im.imaginaryExpression]

/-- The largest denominator of a fraction of `π` that is recognised. -/
def maxPolarDenominator : Nat := 12

/-- The fraction with the smallest denominator next to a number. -/
def simpleFraction? (x : Float) : Option Rat :=
  (List.range maxPolarDenominator).findSome? fun n =>
    let q : Nat := n + 1
    let scaled := x * q.toFloat
    let p := scaled.round
    if (scaled - p).abs < 1e-9 then Rational.ofQuotient? p.toInt64.toInt q else none

/-- A power of Euler's number with an imaginary exponent, whose sign is in front of it. -/
def unitPower (angle : Expression) (negative : Bool) : Expression :=
  let exponent := Expression.productOf [angle, .constant .imaginaryUnit]
  .power (.constant .e) (if negative then .opposite exponent else exponent)

/-- A modulus with an argument that is a fraction of `π`. -/
def polarExpression (modulus : Form) (argument : Rat) : Expression :=
  if argument = 0 then modulus.expression
  else
    let angle := pi.scale (Rational.magnitude argument)
    let unit := unitPower angle.expression (decide (argument < 0))
    if modulus.isOne then unit else Expression.productOf [modulus.expression, unit]

/-- A form as modulus and argument, where it splits and the argument is simple. -/
def polar (p : Preferences) (f : Form) : Expression :=
  match f.splitComplex? with
  | none => f.expression
  | some (re, im) =>
    let z := f.constantValue p.angleUnit
    if !z.isFinite || (im.isZero && z.re >= 0.0) then f.expression
    else
      let modulus := root { p with complexFormat := .cartesian } (add (mul re re) (mul im im)) 2
      match modulus, simpleFraction? (z.arg / piFloat) with
      | .ok modulus, some argument => polarExpression modulus argument
      | _, _ => f.cartesian

/-- A form as the user sees it. -/
def display (p : Preferences) (f : Form) : Expression :=
  if p.complexFormat = .polar then f.polar p else f.cartesian

end Form

namespace Complex

/-- A number in doubles as modulus and argument. -/
def polarExpression (digits : Nat) (z : Complex) : Expression :=
  let modulus := Double.roundSignificant z.norm digits
  let argument := Double.roundSignificant z.arg digits
  Expression.productOf
    [.ofFloat modulus, Form.unitPower (.ofFloat argument.abs) (decide (argument < 0.0))]

/-- An imaginary part, with its sign in front. -/
def imaginaryExpression (y : Float) : Expression :=
  let unit := Expression.constant .imaginaryUnit
  let e := if y.abs == 1.0 then unit else Expression.productOf [.ofFloat y.abs, unit]
  if y < 0.0 then .opposite e else e

/-- A rounded number in doubles as the user sees it. -/
def display (p : Preferences) (z : Complex) : Expression :=
  if !z.isFinite then .undefined
  else if p.complexFormat == .polar && (z.im != 0.0 || z.re < 0.0) then polarExpression p.digits z
  else if z.im == 0.0 then .ofFloat z.re
  else if z.re == 0.0 then imaginaryExpression z.im
  else Expression.sumOf [.ofFloat z.re, imaginaryExpression z.im]

end Complex

end Resolvent

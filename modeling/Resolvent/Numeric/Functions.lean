import Resolvent.Numeric.Complex
import Resolvent.Preferences
import Resolvent.Expression.Builtin

/-!
# Functions of complex numbers

Roots, powers and the built-in functions in doubles.  Under the real format roots and powers of
negative numbers are real where a real value exists, and functions outside their real domain have
no value.
-/

namespace Resolvent.Complex

/-- The principal root with a natural index. -/
def principalRoot (z : Complex) (index : Nat) : Complex :=
  let exponent := 1.0 / index.toFloat
  if z.im == 0.0 && z.re >= 0.0 then ofReal (z.re.pow exponent) else powReal z exponent

/-- The root with a natural index, where an odd root of a negative number is real and an even one
does not exist. -/
def realRoot (z : Complex) (index : Nat) : Complex :=
  if z.im == 0.0 && z.re < 0.0 then
    if index % 2 = 1 then ofReal (-((-z.re).pow (1.0 / index.toFloat))) else nan
  else principalRoot z index

/-- The root that a format prescribes. -/
def root (format : ComplexFormat) (z : Complex) (index : Nat) : Complex :=
  if format = .real then realRoot z index else principalRoot z index

/-- The power of a negative number with an exponent that is no whole number, under the real format:
an exponent `±1/n` is a root, and others have no value. -/
def realPower (base : Complex) (exponent : Float) : Complex :=
  let reciprocal := 1.0 / exponent
  if Double.isWhole reciprocal && reciprocal.abs <= 4294967295.0 then
    let r := realRoot base reciprocal.abs.toUInt32.toNat
    if reciprocal < 0.0 then inv r else r
  else nan

/-- The power of two complex numbers. -/
def power (format : ComplexFormat) (base exponent : Complex) : Complex :=
  if exponent.im == 0.0 && Double.isWhole exponent.re && exponent.re.abs <= 2147483647.0 then
    powInt base exponent.re.toInt64.toInt
  else if base.im == 0.0 && exponent.im == 0.0 then
    if base.re >= 0.0 then ofReal (base.re.pow exponent.re)
    else if format = .real then realPower base exponent.re
    else pow base exponent
  else pow base exponent

/-- The natural logarithm of ten, as a double. -/
def lnTen : Float := 2.302585092994046

/-- The value of a built-in function. -/
def apply (unit : AngleUnit) (format : ComplexFormat) (f : Builtin) (z : Complex)
    (rest : List Complex) : Complex :=
  let isReal := z.im == 0.0
  let realOnly := decide (format = .real)
  match f with
  | .sin => sin (scale z unit.radians)
  | .cos => cos (scale z unit.radians)
  | .tan => tan (scale z unit.radians)
  | .asin =>
    if realOnly && (!isReal || z.re.abs > 1.0) then nan else unscale (asin z) unit.radians
  | .acos =>
    if realOnly && (!isReal || z.re.abs > 1.0) then nan else unscale (acos z) unit.radians
  | .atan => unscale (atan z) unit.radians
  | .exp => exp z
  | .ln => if (realOnly && isReal && z.re < 0.0) || isZero z then nan else ln z
  | .log10 => if realOnly && isReal && z.re < 0.0 then nan else unscale (ln z) lnTen
  | .sqrt => root format z 2
  | .abs => ofReal z.norm
  | .root =>
    let index := rest.head?.getD nan
    if index.im == 0.0 && Double.isWhole index.re && index.re >= 1.0 && index.re <= 1e6 then
      root format z index.re.toUInt32.toNat
    else power format z (inv index)
  | .conj => conj z
  | .re => ofReal z.re
  | .im => ofReal z.im

/-- The value of the built-in function with a code; one without arguments, and an unknown one, have
none. -/
def applyCode (unit : AngleUnit) (format : ComplexFormat) (code : Nat) :
    List Complex → Complex
  | [] => nan
  | z :: rest =>
    match Builtin.ofCode? code with
    | some f => apply unit format f z rest
    | none => nan

end Resolvent.Complex

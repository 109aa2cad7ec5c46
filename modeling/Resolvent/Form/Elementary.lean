import Resolvent.Form.Radical

/-!
# Exact values of functions

Where the built-in functions have exact values: exponentials of whole numbers and of quarter turns,
logarithms of powers of their base, sine, cosine and tangent of multiples of the sixth and of the
quarter of a half turn, the inverse functions at 0 and 1 and -1, and absolute values of numbers that
split into a real and an imaginary part.  Each answers `none` where there is no such value.
-/

namespace Resolvent.Form

/-- A half turn in a unit of angles, as many times as a rational number says. -/
def ofHalfTurns (unit : AngleUnit) (q : Rat) : Form :=
  match unit.halfTurn? with
  | none => pi.scale q
  | some n => ofRat (q * (n : Rat))

/-- How many half turns an angle is, when that is a rational number. -/
def halfTurns? (unit : AngleUnit) (f : Form) : Option Rat :=
  match unit.halfTurn? with
  | some n => f.toRat?.map fun q => q * (1 / (n : Rat))
  | none =>
    if f.isZero then some 0
    else
      match f.singleTerm? with
      | some (m, q) => if m.factors = [(.pi, 1)] then some q else none
      | none => none

/-- How many twelfths of a half turn an angle is, when that is a whole number. -/
def twelfths? (unit : AngleUnit) (f : Form) : Option Int :=
  (f.halfTurns? unit).bind fun q => Rational.toInt64? (q * 12)

/-- The square root of a positive whole number. -/
def sqrtOf (n : Nat) : Form := ofFactors 1 [(.root n 2, 1)]

/-- The sine of a number of twelfths of a half turn, at most six. -/
def sineUpTo6? : Nat → Option Form
  | 0 => some zero
  | 2 => some (ofRat (1 / 2))
  | 3 => some ((sqrtOf 2).scale (1 / 2))
  | 4 => some ((sqrtOf 3).scale (1 / 2))
  | 6 => some one
  | _ => none

/-- The sine of a number of twelfths of a half turn. -/
def sine? (twelfths : Int) : Option Form :=
  let k := (twelfths % 24).toNat
  let j := if k < 12 then k else k - 12
  (sineUpTo6? (if 6 < j then 12 - j else j)).map fun s => if k < 12 then s else neg s

/-- The cosine of a number of twelfths of a half turn, counted in a signed word of 64 bits. -/
def cosine? (twelfths : Int) : Option Form := sine? (Width.wrap64 (twelfths + 6))

/-- The quotient of sine and cosine of a number of twelfths of a half turn; where the cosine is zero
it has no value. -/
def tangent? (twelfths : Int) : Option (Option Form) :=
  match sine? twelfths, cosine? twelfths with
  | some s, some c => some (s.divide? c)
  | _, _ => none

/-- The angle whose sine is 0, 1 or -1. -/
def inverseSine? (q : Rat) : Option Rat :=
  if q = 0 then some 0 else if q = 1 then some (1 / 2) else if q = -1 then some (-1 / 2) else none

/-- The angle whose cosine is 0, 1 or -1. -/
def inverseCosine? (q : Rat) : Option Rat :=
  if q = 0 then some (1 / 2) else if q = 1 then some 0 else if q = -1 then some 1 else none

/-- The angle whose tangent is 0, 1 or -1. -/
def inverseTangent? (q : Rat) : Option Rat :=
  if q = 0 then some 0 else if q = 1 then some (1 / 4) else if q = -1 then some (-1 / 4) else none

/-- The power of Euler's number. -/
def exponential (f : Form) : Form :=
  let kept := ofAtom (.power e f)
  if f.isZero then one
  else
    match f.toRat?.bind Rational.toInteger?, f.singleTerm? with
    | some k, _ => if Width.isInt32 k then ofFactors 1 [(.e, k)] else kept
    | none, some (m, q) =>
      match Rational.toInt64? (q * 2) with
      | some k =>
        if m.factors = [(.pi, 1), (.imaginaryUnit, 1)] then ofFactors 1 [(.imaginaryUnit, k % 4)]
        else kept
      | none => kept
    | none, none => kept

/-- The exponent of a power of Euler's number. -/
def logarithm? (f : Form) : Option Form :=
  if f.isOne then some zero
  else
    match f.singleTerm? with
    | some (⟨[(.e, k)]⟩, q) => if q = 1 then some (ofRat k) else none
    | _ => none

/-- The exponents of ten that are recognised. -/
def decimalExponents : List Int := (List.range 61).map fun (n : Nat) => (n : Int) - 30

/-- The exponent of a power of ten. -/
def decimalLogarithm? (f : Form) : Option Form :=
  match f.toRat? with
  | some q => (decimalExponents.find? fun k => Rational.power? 10 k == some q).map fun k => ofRat k
  | none => none

/-- The form or its opposite, whichever is not negative. -/
def magnitudeOfReal? (unit : AngleUnit) (f : Form) : Option Form :=
  let z := f.constantValue unit
  if z.re.isFinite then some (if z.re < 0.0 then neg f else f) else none

/-- The absolute value. -/
def absolute? (p : Preferences) (f : Form) : Option Form :=
  match f.toRat?, f.splitComplex? with
  | some q, _ => some (ofRat (Rational.magnitude q))
  | none, some (re, im) =>
    if im.isZero then f.magnitudeOfReal? p.angleUnit
    else (root p (add (mul re re) (mul im im)) 2).toOption
  | none, none => none

end Resolvent.Form

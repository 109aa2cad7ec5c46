import Resolvent.Form.Conjugation
import Resolvent.Form.Evaluation

/-!
# Roots of forms

`Form.root` is the root that a format prescribes.  Rational numbers have exact roots with a rational
denominator; square roots of `a + bi` with a rational modulus and roots of powers of the constants
are exact as well; any other form goes under a radical.  Under the real format an odd root of a
negative number is real, and an even one does not exist.
-/

namespace Resolvent

/-- A root has no real value, under the real format. -/
structure NonReal where
  deriving DecidableEq, Repr

/-- What to tell the user. -/
def NonReal.message (_ : NonReal) : String := "root has no real value"

namespace Form

/-- A radical of a form. -/
def radical (f : Form) (index : Nat) : Form := ofAtom (.radical f index)

/-- The positive root of a rational number, with a rational denominator. -/
def positiveRoot (q : Rat) (index : Nat) : Form :=
  if Width.isInt128 q.den && Width.isInt32 index then
    let (outside, inside) := PerfectPower.extract (q * Rat.pow q.den index) index
    let coefficient := outside / q.den
    if inside = 1 then ofRat coefficient else ofFactors coefficient [(.root inside index, 1)]
  else radical (ofRat q) index

/-- The principal cube root of minus one. -/
def sixthTurn : Form :=
  scale (add one (mul (positiveRoot 3 2) imaginaryUnit)) (1 / 2)

/-- The root of a rational number. -/
def rationalRoot (format : ComplexFormat) (q : Rat) (index : Nat) : Except NonReal Form :=
  let magnitude := positiveRoot (Rational.magnitude q) index
  if 0 ≤ q then .ok magnitude
  else if format = .real then if index % 2 = 1 then .ok (neg magnitude) else .error {}
  else if index = 2 then .ok (mul magnitude imaginaryUnit)
  else if index = 3 then .ok (mul magnitude sixthTurn)
  else .ok (radical (ofRat q) index)

/-- The square root of `a + bi` for rational numbers whose modulus is rational. -/
def squareRootOfSum? (a b : Rat) : Option Form :=
  match (positiveRoot (a * a + b * b) 2).toRat? with
  | none => none
  | some modulus =>
    let re := positiveRoot ((modulus + a) * (1 / 2)) 2
    let im := positiveRoot ((modulus - a) * (1 / 2)) 2
    some (add re (mul (if b < 0 then neg im else im) imaginaryUnit))

/-- The rational real and imaginary part of a number that is not real. -/
def gaussianParts? (f : Form) : Option (Rat × Rat) :=
  match f.splitComplex? with
  | none => none
  | some (re, im) =>
    match re.toRat?, im.toRat? with
    | some a, some b => if b = 0 then none else some (a, b)
    | _, _ => none

/-- The factor is a constant with an exponent that the index divides. -/
def isPerfectPower (index : Int) : Atom × Int → Bool
  | (.pi, k) => k % index == 0
  | (.e, k) => k % index == 0
  | _ => false

/-- The coefficient and the roots of the other factors, when those are constants whose exponents the
index divides.  The exponents are divided by the signed word that is nearest to the index. -/
def constantPower? (f : Form) (index : Nat) : Option (Rat × List (Atom × Int)) :=
  match f.singleTerm? with
  | some (m, q) =>
    if m.factors.all (isPerfectPower (Width.clamp32 index)) then
      some (q, m.factors.map fun x => (x.1, x.2 / Width.clamp32 index))
    else none
  | none => none

/-- The bound below which an imaginary part is taken for rounding. -/
def isNegligible (z : Complex) (tolerance : Float) : Bool :=
  let norm := z.norm
  z.im.abs <= tolerance * (if norm < 1.0 then 1.0 else norm)

/-- The root of a form that has no simpler one. -/
def generalRoot (p : Preferences) (f : Form) (index : Nat) : Except NonReal Form :=
  let z := f.constantValue p.angleUnit
  if f.hasSymbols || !z.isFinite then .ok (radical f index)
  else
    let real := isNegligible z 1e-12
    if real && z.re < 0.0 && index % 2 == 0 then
      if p.complexFormat = .real then .error {}
      else if index = 2 then .ok (mul (radical (neg f) index) imaginaryUnit)
      else .ok (radical f index)
    else if !real && p.complexFormat = .real then .error {}
    else .ok (radical f index)

/-- The root of a form that is no rational number, other than a square root of `a + bi`. -/
def otherRoot (p : Preferences) (f : Form) (index : Nat) : Except NonReal Form :=
  match f.constantPower? index with
  | some (q, factors) =>
    (rationalRoot p.complexFormat q index).map fun r => mul r (ofFactors 1 factors)
  | none => generalRoot p f index

/-- The root of a form that is no rational number. -/
def irrationalRoot (p : Preferences) (f : Form) (index : Nat) : Except NonReal Form :=
  match if index = 2 then f.gaussianParts? else none with
  | none => otherRoot p f index
  | some (a, b) =>
    if p.complexFormat = .real then .error {}
    else
      match squareRootOfSum? a b with
      | some r => .ok r
      | none => otherRoot p f index

/-- The root with a natural index. -/
def root (p : Preferences) (f : Form) (index : Nat) : Except NonReal Form :=
  if index ≤ 1 || f.isZero then .ok f
  else
    match f.toRat? with
    | some q => rationalRoot p.complexFormat q index
    | none => irrationalRoot p f index

theorem root_zero (p : Preferences) (index : Nat) : root p zero index = .ok zero := by
  simp [root, isZero, zero]

end Form

end Resolvent

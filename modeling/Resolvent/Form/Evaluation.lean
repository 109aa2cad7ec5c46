import Resolvent.Form.Parts
import Resolvent.Numeric.Functions
import Resolvent.Number.Double

/-!
# Evaluation of forms

The value of a form in complex doubles.  Roots are positive, radicals principal, and functions and
powers complex whatever the format; symbols without a value make the result the number that is none.
-/

namespace Resolvent

mutual

/-- The value of an atom. -/
def Atom.evaluate (unit : AngleUnit) (value : Nat → Option Complex) : Atom → Complex
  | .symbol id => (value id).getD Complex.nan
  | .pi => Complex.ofReal piFloat
  | .e => Complex.ofReal eFloat
  | .imaginaryUnit => Complex.i
  | .root radicand index =>
    Complex.ofReal ((Double.ofRational radicand).pow (1.0 / index.toFloat))
  | .radical radicand index => (radicand.evaluate unit value).principalRoot index
  | .apply f args => Complex.applyCode unit .cartesian f.code (Form.evaluateAll unit value args)
  | .power base exponent =>
    Complex.power .cartesian (base.evaluate unit value) (exponent.evaluate unit value)
  | .reciprocal f => (f.evaluate unit value).inv

/-- A number times the value of a monomial. -/
def Monomial.evaluate (unit : AngleUnit) (value : Nat → Option Complex) (start : Complex) :
    Monomial → Complex
  | ⟨factors⟩ => Monomial.evaluateFactors unit value start factors

/-- A number times the powers of a list of factors, from the left. -/
def Monomial.evaluateFactors (unit : AngleUnit) (value : Nat → Option Complex) (start : Complex) :
    List (Atom × Int) → Complex
  | [] => start
  | (a, k) :: rest =>
    Monomial.evaluateFactors unit value (start.mul ((a.evaluate unit value).powInt k)) rest

/-- The value of a form. -/
def Form.evaluate (unit : AngleUnit) (value : Nat → Option Complex) : Form → Complex
  | ⟨terms⟩ => Form.evaluateTerms unit value Complex.zero terms

/-- A number plus the values of a list of terms, from the left. -/
def Form.evaluateTerms (unit : AngleUnit) (value : Nat → Option Complex) (start : Complex) :
    List (Monomial × Rat) → Complex
  | [] => start
  | (m, q) :: rest =>
    Form.evaluateTerms unit value
      (start.add (m.evaluate unit value (Complex.ofReal (Double.ofRational q)))) rest

/-- The values of a list of forms. -/
def Form.evaluateAll (unit : AngleUnit) (value : Nat → Option Complex) : List Form → List Complex
  | [] => []
  | f :: fs => f.evaluate unit value :: Form.evaluateAll unit value fs

end

/-- The value of a form without symbols. -/
def Form.constantValue (unit : AngleUnit) (f : Form) : Complex := f.evaluate unit fun _ => none

theorem Form.constantValue_zero (unit : AngleUnit) :
    Form.zero.constantValue unit = Complex.zero := by
  simp [Form.constantValue, Form.zero, Form.evaluate, Form.evaluateTerms]

end Resolvent

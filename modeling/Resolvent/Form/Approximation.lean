import Resolvent.Form.Display
import Resolvent.Numeric.Complex

/-!
# Exact and approximate results

A result is shown exactly and, rounded to the significant digits, approximately.  Under the real
format a value that is not real has neither, and a value that is no finite number is undefined.
-/

namespace Resolvent

/-- What a value turned out to be. -/
inductive ValueKind where
  /-- A finite number. -/
  | finite
  /-- No number, or an infinite one. -/
  | undefined
  /-- A number that is not real where only real ones are admitted. -/
  | unreal
  deriving DecidableEq, Repr

/-- A value as it is shown. -/
structure Rendition where
  /-- The exact expression. -/
  exact : Expression
  /-- The approximate expression. -/
  approximate : Expression
  /-- The number behind the approximate expression. -/
  value : Complex
  /-- What the value is. -/
  kind : ValueKind

namespace Rendition

/-- Both expressions are numbers. -/
def isFinite (r : Rendition) : Bool := r.kind == .finite

/-- A value that is not real where only real ones are admitted. -/
def unreal : Rendition := ⟨.unreal, .unreal, Complex.nan, .unreal⟩

/-- A value that is no finite number. -/
def undefined (z : Complex) : Rendition := ⟨.undefined, .undefined, z, .undefined⟩

/-- The fraction of the modulus below which an imaginary part is taken for rounding. -/
def realTolerance : Float := 1e-10

/-- The value is real, up to rounding. -/
def isReal (f : Form) (z : Complex) : Bool :=
  (f.splitComplex?.any fun parts => parts.2.isZero) || Form.isNegligible z realTolerance

/-- A form as it is shown. -/
def ofForm (p : Preferences) (f : Form) : Rendition :=
  let z := f.constantValue p.angleUnit
  if !z.isFinite then undefined z
  else if p.complexFormat == .real && !isReal f z then unreal
  else
    let value := z.round p.digits
    ⟨f.display p, value.display p, value, .finite⟩

/-- A number that is known in doubles only as it is shown. -/
def ofComplex (p : Preferences) (z : Complex) : Rendition :=
  if !z.isFinite then undefined z
  else if p.complexFormat == .real && z.im.abs > realTolerance * z.norm then unreal
  else
    let value := z.round p.digits
    ⟨value.display p, value.display p, value, .finite⟩

/-- The form is exactly the number whose parts have the shortest digits of two doubles. -/
def isDecimal (f : Form) (z : Complex) : Bool :=
  match Double.shortestRational? z.re, Double.shortestRational? z.im with
  | some re, some im =>
    decide (f = Form.add (Form.ofRat re) (Form.mul (Form.ofRat im) Form.imaginaryUnit))
  | _, _ => false

end Rendition

end Resolvent

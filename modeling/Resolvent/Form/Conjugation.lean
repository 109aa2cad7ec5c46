import Resolvent.Form.Product

/-!
# Real and imaginary parts

A form whose atoms are known to be real, the imaginary unit apart, splits into its real and its
imaginary part, and so has a conjugate.
-/

namespace Resolvent

mutual

/-- The atom stands for a real number whatever the symbols stand for. -/
def Atom.isKnownReal : Atom → Bool
  | .pi | .e | .root _ _ => true
  | .radical f index =>
    f.isKnownReal && (index % 2 == 1 || (f.toRat?.any fun q => decide (0 ≤ q)))
  | .reciprocal f => f.isKnownReal
  | .symbol _ | .imaginaryUnit | .apply _ _ | .power _ _ => false

/-- All factors of a monomial are known to be real. -/
def Monomial.isKnownReal : Monomial → Bool
  | ⟨factors⟩ => Monomial.areFactorsKnownReal factors

/-- All factors of a list are known to be real. -/
def Monomial.areFactorsKnownReal : List (Atom × Int) → Bool
  | [] => true
  | (a, _) :: rest => a.isKnownReal && Monomial.areFactorsKnownReal rest

/-- All atoms of a form are known to be real. -/
def Form.isKnownReal : Form → Bool
  | ⟨terms⟩ => Form.areTermsKnownReal terms

/-- All atoms of a list of terms are known to be real. -/
def Form.areTermsKnownReal : List (Monomial × Rat) → Bool
  | [] => true
  | (m, _) :: rest => m.isKnownReal && Form.areTermsKnownReal rest

end

namespace Form

/-- The terms without the imaginary unit. -/
def realPart (f : Form) : Form :=
  ⟨f.terms.filter fun t => t.1.exponentOf .imaginaryUnit == 0⟩

/-- The terms with the imaginary unit, divided by it. -/
def imaginaryPart (f : Form) : Form :=
  sumAll ((f.terms.filter fun t => t.1.exponentOf .imaginaryUnit != 0).map fun t =>
    ofTerm (t.1.without .imaginaryUnit) t.2)

/-- The real and the imaginary part, when both are known to be real. -/
def splitComplex? (f : Form) : Option (Form × Form) :=
  if f.realPart.isKnownReal && f.imaginaryPart.isKnownReal then some (f.realPart, f.imaginaryPart)
  else none

/-- The complex conjugate of a form that splits. -/
def conjugate? (f : Form) : Option Form :=
  f.splitComplex?.map fun (re, im) => sub re (mul im imaginaryUnit)

theorem isKnownReal_of_splitComplex? {f re im : Form} (h : f.splitComplex? = some (re, im)) :
    re.isKnownReal = true ∧ im.isKnownReal = true := by
  unfold splitComplex? at h
  split at h
  · simp_all
  · simp at h

end Form

end Resolvent

import Resolvent.Form.Sum

/-!
# Coefficients of unknowns

A form that is linear in some unknowns gives a linear equation (`Form.linear?`), and one that is a
polynomial in an unknown the list of its coefficients (`Form.polynomial?`).
-/

namespace Resolvent

/-- The equation that the sum of the multiples of the unknowns is a constant. -/
structure LinearEquation where
  /-- The coefficient of each unknown. -/
  coefficients : List Form
  /-- What the sum of the multiples is to be. -/
  constant : Form
  deriving DecidableEq

namespace Form

/-- The place of the first unknown that occurs in an atom. -/
def placeIn (unknowns : List Nat) (a : Atom) : Option Nat :=
  unknowns.findIdx? fun u => a.mentions u

/-- The place of the unknown in a product that has exactly one, on its own and with exponent one, or
`none` inside if it has none. -/
def linearPlace? (unknowns : List Nat) : List (Atom × Int) → Option (Option Nat)
  | [] => some none
  | (a, k) :: rest =>
    match placeIn unknowns a, linearPlace? unknowns rest with
    | none, place => place
    | some i, some none =>
      match a with
      | .symbol id =>
        if k = 1 ∧ (unknowns.filter fun u => u == id).length = 1 then some (some i) else none
      | _ => none
    | _, _ => none

/-- The terms at the places of their unknowns. -/
def linearTerms? (f : Form) (unknowns : List Nat) :
    Option (List (Option Nat × Monomial × Rat)) :=
  f.terms.mapM fun t => (linearPlace? unknowns t.1.factors).map fun place => (place, t)

/-- The equation that says that the form is zero, if the form is linear in the unknowns. -/
def linear? (f : Form) (unknowns : List Nat) : Option LinearEquation :=
  (f.linearTerms? unknowns).map fun terms =>
    { coefficients := unknowns.mapIdx fun i u =>
        sumAll ((terms.filter fun t => t.1 == some i).map fun t =>
          ofTerm (t.2.1.without (.symbol u)) t.2.2)
      constant := sumAll ((terms.filter fun t => t.1 == none).map fun t =>
          ofTerm t.2.1 (-t.2.2)) }

/-- The exponent of the unknown in a term of a polynomial. -/
def degreeIn? (unknown maxDegree : Nat) (m : Monomial) : Option Nat :=
  match m.exponentOf (.symbol unknown) with
  | .ofNat d =>
    if d ≤ maxDegree ∧ (m.without (.symbol unknown)).mentions unknown = false then some d else none
  | .negSucc _ => none

/-- Drops the zeros at the end of a list of coefficients, of which the first stays. -/
def dropZeros : List Form → List Form
  | [] => []
  | f :: fs =>
    match dropZeros fs with
    | [g] => if g.isZero then [f] else [f, g]
    | gs => f :: gs

/-- The coefficients of the powers of the unknown, the constant first, if the form is a polynomial
of at most that degree. -/
def polynomial? (f : Form) (unknown maxDegree : Nat) : Option (List Form) :=
  (f.terms.mapM fun t => (degreeIn? unknown maxDegree t.1).map fun d => (d, t)).map fun terms =>
    dropZeros ((List.range (maxDegree + 1)).map fun d =>
      sumAll ((terms.filter fun t => t.1 == d).map fun t =>
        ofTerm (t.2.1.without (.symbol unknown)) t.2.2))

end Form

end Resolvent

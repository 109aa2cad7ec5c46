import Resolvent.Form.Coefficients
import Resolvent.Form.Evaluation
import Resolvent.Form.Product
import Resolvent.Linear.Elimination

/-!
# Linear systems

Forms that are linear in the unknowns give the rows of a tableau, with the constants in the last
column, and the reduced row echelon form decides: a row without coefficients and with a constant is
a contradiction; as many pivots as unknowns leave one solution; anything else leaves infinitely
many.  The estimate of magnitudes that elimination exchanges rows by is a parameter.
-/

namespace Resolvent

/-- Forms as scalars. -/
instance : Scalar Form where
  zero := Form.zero
  one := Form.one
  add := Form.add
  mul := Form.mul
  neg := Form.neg
  isZero := Form.isZero
  inverse? := Form.inverse?

/-- How a system of linear equations turns out. -/
inductive LinearOutcome where
  /-- There is one value for each unknown. -/
  | unique (values : List Form)
  /-- Some equations contradict each other. -/
  | inconsistent
  /-- There are infinitely many solutions. -/
  | underdetermined
  /-- Some equation is not linear. -/
  | notLinear
  deriving DecidableEq

namespace LinearSystem

/-- The row of an equation: the coefficients and the constant. -/
def row (n : Nat) (e : LinearEquation) : Vector Form (n + 1) :=
  Vector.ofFn fun j : Fin (n + 1) =>
    if j.val < n then e.coefficients[j.val]?.getD Form.zero else e.constant

/-- The tableau of equations in `n` unknowns. -/
def tableau (n : Nat) (equations : List LinearEquation) :
    Tableau Form equations.length (n + 1) :=
  ⟨⟨(equations.map (row n)).toArray, by simp⟩⟩

/-- A row without coefficients and with a constant. -/
def isContradiction {m n : Nat} (A : Tableau Form m (n + 1)) (i : Fin m) : Bool :=
  ((List.finRange n).all fun j => (A.entry i j.castSucc).isZero) && !(A.entry i (Fin.last n)).isZero

/-- What a reduced tableau with a number of pivots says. -/
def outcome {m n : Nat} (A : Tableau Form m (n + 1)) (rank : Nat) : LinearOutcome :=
  if (List.finRange m).any (isContradiction A) then .inconsistent
  else if rank = n ∧ 0 < n then
    .unique (((List.finRange m).take n).map fun i => A.entry i (Fin.last n))
  else .underdetermined

/-- Solves the equations that say that forms are zero. -/
def solveWith (magnitude : Form → Float) (forms : List Form) (unknowns : List Nat) :
    LinearOutcome :=
  match forms.mapM fun f => f.linear? unknowns with
  | none => .notLinear
  | some equations =>
    let (A, rank) := (tableau unknowns.length equations).reducedRowEchelon magnitude
    outcome A rank

/-- The modulus of the value of a form. -/
def magnitude (f : Form) : Float := (f.constantValue .radian).norm

/-- Solves the equations that say that forms are zero, with pivots chosen by their moduli. -/
def solve (forms : List Form) (unknowns : List Nat) : LinearOutcome :=
  solveWith magnitude forms unknowns

end LinearSystem

end Resolvent

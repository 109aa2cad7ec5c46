import Resolvent.Numeric.Evaluation
import Resolvent.Numeric.RootSearch
import Resolvent.Rewriting.Simplifier
import Resolvent.Solve.Solution

/-!
# Results

What a solve leaves behind, besides its catalog and the interval of a search: how the system was
classified, how many solutions there are, the solutions that are listed, and how the solve ended.
-/

namespace Resolvent

/-- What a system turned out to be. -/
inductive SystemKind where
  /-- Linear equations. -/
  | linear
  /-- One quadratic or cubic equation in one unknown. -/
  | polynomial
  /-- One equation in one unknown whose roots are searched for. -/
  | search
  deriving DecidableEq, Repr

/-- How many solutions there are. -/
inductive SolutionCount where
  | finite (n : Nat)
  | infinite
  deriving DecidableEq, Repr

/-- What a solve depends on besides the equations and the definitions. -/
structure SolveOptions where
  /-- The preferences of the user. -/
  preferences : Preferences := {}
  /-- What an examination forbids. -/
  exam : ExamMode := {}
  /-- The largest number of roots that a search lists. -/
  maxRoots : Nat := 10
  /-- What simplifies functions by identities. -/
  simplifier : Simplifier
  /-- When it is asked first. -/
  moment : Nat := 0

/-- Sets the largest number of roots that a search lists, at least one. -/
def SolveOptions.withMaxRoots (o : SolveOptions) (n : Nat) : SolveOptions :=
  { o with maxRoots := if n < 1 then 1 else n }

/-- What a search on an interval needs to know of the equation. -/
structure SearchEquation where
  /-- The expression that is to be zero. -/
  expression : Handle
  /-- The unknown. -/
  unknown : Nat
  /-- Which definitions are replaced. -/
  mode : Mode
  /-- The preferences that the equation was solved with. -/
  preferences : Preferences
  deriving DecidableEq, Repr

/-- The results of a solve. -/
structure Results where
  /-- What the system turned out to be. -/
  kind : SystemKind := .linear
  /-- The degree of the equations, -1 where it plays no part. -/
  degree : Int := 1
  /-- How many solutions there are. -/
  count : SolutionCount := .finite 0
  /-- The solutions, with the discriminant of a polynomial behind its roots. -/
  solutions : List Solution := []
  /-- How the solve ended. -/
  status : Status := .noError
  /-- The roots that a search has found. -/
  roots : RootSearch.Roots Float := {}
  /-- The equation to search with. -/
  search : Option SearchEquation := none
  /-- Stored variables were replaced by their values. -/
  replaced : Bool := false

/-- The largest number of solutions that are kept: one for each unknown, and a discriminant. -/
def maxExactSolutions : Nat := maxVariables + 1

/-- A value with an imaginary part beyond this fraction of the real part is not real. -/
def searchTolerance : Float := 1e-10

/-- The value of an equation that is searched, where it is real. -/
def SearchEquation.valueAt (s : SearchEquation) (Δ : Definitions) (e : Expression) (x : Float) :
    Float :=
  let z := e.evaluate ⟨Δ, s.mode, s.preferences⟩ s.unknown x
  let size := z.re.abs
  if z.im.abs > searchTolerance * (if size < 1.0 || size.isNaN then 1.0 else size) then Double.nan
  else z.re

end Resolvent

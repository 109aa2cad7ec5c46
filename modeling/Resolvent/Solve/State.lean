import Resolvent.Solve.Catalog
import Resolvent.Solve.Equation
import Resolvent.Solve.Results

/-!
# The state of a solver

The equations to solve, and what the last solve has left behind: the catalog of its variables, its
results, the interval of a search, and which nodes of the arena are its own.  Setting a bound of the
interval beyond the other one moves the other one along, one unit away.
-/

namespace Resolvent

/-- An interval of doubles. -/
structure Interval where
  /-- The lower bound. -/
  min : Float := -10.0
  /-- The upper bound. -/
  max : Float := 10.0

namespace Interval

/-- The lower bound has the number 0 and the upper bound the number 1. -/
def bound? (i : Interval) : Nat → Option Float
  | 0 => some i.min
  | 1 => some i.max
  | _ => none

/-- Sets the lower bound. -/
def setMin (i : Interval) (x : Float) : Interval :=
  { min := x, max := if x > i.max then x + 1.0 else i.max }

/-- Sets the upper bound. -/
def setMax (i : Interval) (x : Float) : Interval :=
  { min := if i.min > x then x - 1.0 else i.min, max := x }

/-- Sets the bound with a number. -/
def set? (i : Interval) (index : Nat) (x : Float) : Option Interval :=
  match index with
  | 0 => some (i.setMin x)
  | 1 => some (i.setMax x)
  | _ => none

end Interval

/-- The nodes of the last solve. -/
structure Footprint where
  /-- Where they begin. -/
  start : Checkpoint
  /-- Where they end. -/
  stop : Nat
  deriving DecidableEq, Repr

/-- The equations to solve, and the results of the last solve. -/
structure EquationStore where
  /-- The slots for equations. -/
  slots : Vector (Option Equation) maxVariables := Vector.replicate maxVariables none
  /-- The variables that the last solve has met. -/
  catalog : Catalog := {}
  /-- The results of the last solve. -/
  results : Results := { degree := 0, count := .infinite }
  /-- The interval for a search. -/
  interval : Interval := {}
  /-- The nodes of the last solve, unless they have been released. -/
  footprint : Option Footprint := none

namespace EquationStore

/-- The stored equations, in the order of their slots. -/
def equations (s : EquationStore) : List Equation := s.slots.toList.filterMap id

/-- Drops results. -/
def resetResults (s : EquationStore) : EquationStore := { s with results := {} }

end EquationStore

end Resolvent

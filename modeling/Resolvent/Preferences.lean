import Resolvent.Expression.Node

/-!
# Preferences

How results are shown: the format of complex numbers, the unit of angles and the number of
significant digits.  In exam mode exact results may be forbidden; plain numbers never are.
-/

namespace Resolvent

/-- How complex numbers are shown, and whether they are admitted at all. -/
inductive ComplexFormat where
  /-- Only real numbers. -/
  | real
  /-- Real part and imaginary part. -/
  | cartesian
  /-- Modulus and argument. -/
  | polar
  deriving DecidableEq, Repr

/-- The unit of the angles that functions take and return. -/
inductive AngleUnit where
  | radian | degree | gradian
  deriving DecidableEq, Repr

/-- The circle number, as a double. -/
def piFloat : Float := 3.141592653589793

/-- Euler's number, as a double. -/
def eFloat : Float := 2.718281828459045

/-- The number of radians in a unit. -/
def AngleUnit.radians : AngleUnit → Float
  | radian => 1.0
  | degree => piFloat / 180.0
  | gradian => piFloat / 200.0

/-- The number of units in half a turn; radians have no such number. -/
def AngleUnit.halfTurn? : AngleUnit → Option Nat
  | radian => none
  | degree => some 180
  | gradian => some 200

/-- The preferences of the user. -/
structure Preferences where
  /-- The format of complex numbers. -/
  complexFormat : ComplexFormat := .real
  /-- The unit of angles. -/
  angleUnit : AngleUnit := .radian
  /-- The number of significant digits of approximations. -/
  digits : Nat := 10
  deriving DecidableEq, Repr

namespace Preferences

/-- Sets the number of significant digits, at least 1 and at most 15. -/
def withDigits (p : Preferences) (digits : Nat) : Preferences :=
  { p with digits := if digits < 1 then 1 else if 15 < digits then 15 else digits }

/-- Admits complex numbers, where an equation mentions the imaginary unit. -/
def upgraded (p : Preferences) : Preferences :=
  if p.complexFormat = .real then { p with complexFormat := .cartesian } else p

end Preferences

/-- What an examination forbids. -/
structure ExamMode where
  /-- Exact results that are no plain numbers are hidden. -/
  forbidsExact : Bool := false
  deriving DecidableEq, Repr

namespace Expression

mutual

/-- A product of whole numbers, doubles and powers of whole numbers. -/
def isIntegerProduct : Expression → Bool
  | integer _ | float _ => true
  | product factors => areIntegerProducts factors
  | power (integer _) (integer n) => decide (0 ≤ n)
  | _ => false

/-- All members of a list are such products. -/
def areIntegerProducts : List Expression → Bool
  | [] => true
  | e :: es => isIntegerProduct e && areIntegerProducts es

end

/-- A number written out, a quotient or product of such, or the opposite of one. -/
def isPlainNumber : Expression → Bool
  | integer _ | fraction _ | float _ => true
  | opposite e => isPlainNumber e
  | quotient a b => isIntegerProduct a && isIntegerProduct b
  | e@(product _) | e@(power _ _) => isIntegerProduct e
  | _ => false

end Expression

/-- The exact result may not be shown. -/
def ExamMode.forbids (exam : ExamMode) (e : Expression) : Bool :=
  exam.forbidsExact && !e.isPlainNumber

end Resolvent

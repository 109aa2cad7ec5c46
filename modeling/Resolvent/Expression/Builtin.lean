/-!
# Built-in functions

The functions a calculator knows by name.  Each has a code, its place in `Builtin.all`; codes past
the end belong to no function.  `Builtin.ofCode?_code` and `Builtin.ofName?_name` say that code and
name determine the function.
-/

namespace Resolvent

/-- The built-in functions. -/
inductive Builtin where
  | sin | cos | tan | asin | acos | atan | exp | ln | log10 | sqrt | abs | root | conj | re | im
  deriving DecidableEq, Repr, Hashable

namespace Builtin

/-- All functions, in the order of their codes. -/
def all : List Builtin :=
  [sin, cos, tan, asin, acos, atan, exp, ln, log10, sqrt, abs, root, conj, re, im]

/-- The code of a function. -/
def code : Builtin → Nat
  | sin => 0 | cos => 1 | tan => 2 | asin => 3 | acos => 4 | atan => 5 | exp => 6 | ln => 7
  | log10 => 8 | sqrt => 9 | abs => 10 | root => 11 | conj => 12 | re => 13 | im => 14

/-- The function with a given code. -/
def ofCode? (code : Nat) : Option Builtin := all[code]?

/-- The name of a function. -/
def name : Builtin → String
  | sin => "sin" | cos => "cos" | tan => "tan" | asin => "asin" | acos => "acos" | atan => "atan"
  | exp => "exp" | ln => "ln" | log10 => "log10" | sqrt => "sqrt" | abs => "abs" | root => "root"
  | conj => "conj" | re => "re" | im => "im"

/-- The function with a given name. -/
def ofName? (name : String) : Option Builtin := all.find? fun f => f.name == name

/-- The number of arguments of the function with a given code. -/
def arityOfCode (code : Nat) : Nat := if code = root.code then 2 else 1

/-- The function takes an angle. -/
def takesAngle : Builtin → Bool
  | sin | cos | tan => true
  | _ => false

/-- The function returns an angle. -/
def returnsAngle : Builtin → Bool
  | asin | acos | atan => true
  | _ => false

/-- The function is trigonometric, exponential or logarithmic, or the inverse of such a one. -/
def isTranscendental : Builtin → Bool
  | sin | cos | tan | asin | acos | atan | exp | ln | log10 => true
  | _ => false

theorem ofCode?_code (f : Builtin) : ofCode? f.code = some f := by
  cases f <;> rfl

theorem code_of_ofCode? {code : Nat} {f : Builtin} (h : ofCode? code = some f) : f.code = code := by
  obtain ⟨hlt, rfl⟩ := List.getElem?_eq_some_iff.1 h
  have hcode : ∀ i : Fin all.length, (all.get i).code = i := by decide
  exact hcode ⟨code, hlt⟩

theorem ofName?_name (f : Builtin) : ofName? f.name = some f := by
  cases f <;> decide +kernel

end Builtin

end Resolvent

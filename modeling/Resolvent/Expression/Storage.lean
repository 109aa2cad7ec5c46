import Resolvent.Expression.Arena

/-!
# Storing expressions

`Build.store` stores an expression with all its parts in an arena and gives its handle.  Expressions
that are made to be stored are built with the constructors of this module, which keep numbers, sums
and products in the shape in which the arena has them.
-/

namespace Resolvent

namespace Expression

/-- A rational number, whole where it fits 64 bits. -/
def ofRat (q : Rat) : Expression :=
  match Rational.toInt64? q with
  | some n => integer n
  | none => fraction q

/-- A double.  The two zeros are one. -/
def ofFloat (x : Float) : Expression := float (if x == 0.0 then 0.0 else x).toBits

/-- A sum; that of no terms is zero and that of one is the term. -/
def sumOf : List Expression → Expression
  | [] => integer 0
  | [e] => e
  | es => sum es

/-- A product; that of no factors is one and that of one is the factor. -/
def productOf : List Expression → Expression
  | [] => integer 1
  | [e] => e
  | es => product es

/-- A root, square roots by the function of their own. -/
def rootOf (radicand : Expression) (index : Nat) : Expression :=
  if index = 2 then apply Builtin.sqrt.code [radicand]
  else apply Builtin.root.code [radicand, integer index]

theorem sumOf_singleton (e : Expression) : sumOf [e] = e := rfl

theorem productOf_singleton (e : Expression) : productOf [e] = e := rfl

end Expression

namespace Build

mutual

/-- The handle of an expression, whose parts are stored where they are new. -/
def store : Expression → Build Handle
  | .integer n => intern (.integer n)
  | .fraction q => intern (.fraction q)
  | .float bits => intern (.float bits)
  | .symbol id => intern (.symbol id)
  | .constant c => intern (.constant c)
  | .undefined => intern .undefined
  | .unreal => intern .unreal
  | .sum args => do intern (.sum (← storeAll args))
  | .product args => do intern (.product (← storeAll args))
  | .power a b => do
    let a ← store a
    let b ← store b
    intern (.power a b)
  | .opposite a => do intern (.opposite (← store a))
  | .quotient a b => do
    let a ← store a
    let b ← store b
    intern (.quotient a b)
  | .apply code args => do intern (.apply code (← storeAll args))
  | .call name a => do intern (.call name (← store a))
  | .matrix rows columns args => do intern (.matrix rows columns (← storeAll args))

/-- The handles of a list of expressions. -/
def storeAll : List Expression → Build (List Handle)
  | [] => return []
  | e :: es => do
    let h ← store e
    let hs ← storeAll es
    return h :: hs

end

end Build

end Resolvent

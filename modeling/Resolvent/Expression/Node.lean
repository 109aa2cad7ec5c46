import Resolvent.Expression.Builtin

/-!
# Nodes and expressions

An expression is a tree (`Expression`).  Expressions are stored as nodes whose operands are handles
of other nodes (`Node`), so that equal expressions share their storage.  Symbols stand by number and
built-in functions by code; a code that belongs to no function is an unknown function.
-/

namespace Resolvent

/-- The constants with a name of their own. -/
inductive Constant where
  | pi | e | imaginaryUnit
  deriving DecidableEq, Repr, Hashable

/-- The place of a node in its store. -/
structure Handle where
  /-- The number of nodes stored before it. -/
  index : Nat
  deriving DecidableEq, Repr, Hashable

/-- A stored node. -/
inductive Node where
  /-- A whole number of 64 bits. -/
  | integer (n : Int)
  /-- Any other rational number. -/
  | fraction (q : Rat)
  /-- A double, by its encoding. -/
  | float (bits : UInt64)
  /-- A symbol, by its number. -/
  | symbol (id : Nat)
  /-- A constant. -/
  | constant (c : Constant)
  /-- A value that does not exist. -/
  | undefined
  /-- A value that is not real where only real ones are admitted. -/
  | unreal
  /-- A sum. -/
  | sum (terms : List Handle)
  /-- A product. -/
  | product (factors : List Handle)
  /-- A power. -/
  | power (base exponent : Handle)
  /-- An opposite. -/
  | opposite (arg : Handle)
  /-- A quotient. -/
  | quotient (numerator denominator : Handle)
  /-- A built-in function, by its code, with its arguments. -/
  | apply (code : Nat) (args : List Handle)
  /-- A user function, by the number of its name, with its argument. -/
  | call (name : Nat) (arg : Handle)
  /-- A matrix with its entries row by row. -/
  | matrix (rows columns : Nat) (entries : List Handle)
  deriving DecidableEq, Hashable

/-- An expression. -/
inductive Expression where
  /-- A whole number of 64 bits. -/
  | integer (n : Int)
  /-- Any other rational number. -/
  | fraction (q : Rat)
  /-- A double, by its encoding. -/
  | float (bits : UInt64)
  /-- A symbol, by its number. -/
  | symbol (id : Nat)
  /-- A constant. -/
  | constant (c : Constant)
  /-- A value that does not exist. -/
  | undefined
  /-- A value that is not real where only real ones are admitted. -/
  | unreal
  /-- A sum. -/
  | sum (terms : List Expression)
  /-- A product. -/
  | product (factors : List Expression)
  /-- A power. -/
  | power (base exponent : Expression)
  /-- An opposite. -/
  | opposite (arg : Expression)
  /-- A quotient. -/
  | quotient (numerator denominator : Expression)
  /-- A built-in function, by its code, with its arguments. -/
  | apply (code : Nat) (args : List Expression)
  /-- A user function, by the number of its name, with its argument. -/
  | call (name : Nat) (arg : Expression)
  /-- A matrix with its entries row by row. -/
  | matrix (rows columns : Nat) (entries : List Expression)

namespace Node

/-- The node has no operands by its kind. -/
def isAtom : Node → Bool
  | integer _ | fraction _ | float _ | symbol _ | constant _ | undefined | unreal => true
  | _ => false

/-- The node is a number written out. -/
def isNumber : Node → Bool
  | integer _ | fraction _ | float _ => true
  | _ => false

/-- The operands, in order. -/
def children : Node → List Handle
  | sum args | product args | apply _ args | matrix _ _ args => args
  | power a b | quotient a b => [a, b]
  | opposite a | call _ a => [a]
  | _ => []

theorem children_of_isAtom : ∀ {n : Node}, n.isAtom = true → n.children = []
  | integer _, _ | fraction _, _ | float _, _ | symbol _, _ | constant _, _ | undefined, _
  | unreal, _ => rfl

end Node

namespace Expression

/-- The expression has no operands by its kind. -/
def isAtom : Expression → Bool
  | integer _ | fraction _ | float _ | symbol _ | constant _ | undefined | unreal => true
  | _ => false

/-- The expression is a number written out. -/
def isNumber : Expression → Bool
  | integer _ | fraction _ | float _ => true
  | _ => false

mutual

/-- Some expression within an expression, itself included, has a property. -/
def any (p : Expression → Bool) : Expression → Bool
  | e@(sum args) | e@(product args) | e@(apply _ args) | e@(matrix _ _ args) =>
    p e || anyOf p args
  | e@(power a b) | e@(quotient a b) => p e || any p a || any p b
  | e@(opposite a) | e@(call _ a) => p e || any p a
  | e => p e

/-- Some expression within the members of a list has a property. -/
def anyOf (p : Expression → Bool) : List Expression → Bool
  | [] => false
  | e :: es => any p e || anyOf p es

end

mutual

/-- The symbols of an expression, in the order of their first occurrence, after those already
known. -/
def collectSymbols (known : List Nat) : Expression → List Nat
  | symbol id => if known.contains id then known else known ++ [id]
  | sum args | product args | apply _ args | matrix _ _ args => collectSymbolsOf known args
  | power a b | quotient a b => collectSymbols (collectSymbols known a) b
  | opposite a | call _ a => collectSymbols known a
  | _ => known

/-- The symbols of a list of expressions, after those already known. -/
def collectSymbolsOf (known : List Nat) : List Expression → List Nat
  | [] => known
  | e :: es => collectSymbolsOf (collectSymbols known e) es

end

end Expression

end Resolvent

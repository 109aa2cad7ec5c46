import Resolvent.Expression.Builtin

/-!
# Terms

The language of rewriting, which is also that of texts that are read: integers, symbols, and
operators applied to terms.  A term is stored as a sequence of cells, each after the cells of its
operands, with the root last; cells may be shared.  `Term.cost` prefers few transcendental
functions, and of terms with equally many the smaller; a cost is at most `maxCost`.
-/

namespace Resolvent

/-- The operators of terms. -/
inductive Operator where
  | add | sub | mul | div | neg | pow
  /-- A built-in function. -/
  | apply (f : Builtin)
  /-- A user function, whose name is the first operand. -/
  | call
  /-- A matrix of one row. -/
  | matrix
  deriving DecidableEq, Repr, Hashable

/-- The head of a term: an integer or a symbol without operands, or an operator with some. -/
inductive Head where
  | number (n : Int)
  | symbol (name : String)
  | op (o : Operator)
  deriving DecidableEq, Repr, Hashable

/-- A head with the places of its operands. -/
structure Cell where
  /-- The head. -/
  head : Head
  /-- The places of the operands. -/
  operands : List Nat
  deriving DecidableEq, Repr, Hashable

/-- A term with sharing: operands come before the cells that use them, and the root is last. -/
structure Term where
  /-- The cells. -/
  cells : Array Cell := #[]
  deriving DecidableEq, Repr

namespace Operator

/-- The operators with a fixed number of operands and a sign of their own. -/
def signs : List (String × Nat × Operator) :=
  [("+", 2, add), ("-", 2, sub), ("*", 2, mul), ("/", 2, div), ("neg", 1, neg), ("^", 2, pow),
    ("call", 2, call)]

/-- The operator with a sign and a number of operands. -/
def ofText? (text : String) (arity : Nat) : Option Operator :=
  match signs.find? fun s => s.1 == text with
  | some (_, n, o) => if n = arity then some o else none
  | none =>
    match Builtin.ofName? text with
    | some f => if Builtin.arityOfCode f.code = arity then some (apply f) else none
    | none => if text == "matrix" then some matrix else none

/-- The sign of an operator. -/
def text : Operator → String
  | add => "+" | sub => "-" | mul => "*" | div => "/" | neg => "neg" | pow => "^"
  | apply f => f.name
  | call => "call"
  | matrix => "matrix"

/-- The operator is a transcendental function. -/
def isTranscendental : Operator → Bool
  | apply f => f.isTranscendental
  | _ => false

end Operator

/-- The text of a head. -/
def Head.text : Head → String
  | .number n => toString n
  | .symbol name => name
  | .op o => o.text

/-- What a head adds to the cost of a term. -/
def Head.cost : Head → Nat
  | .op o => if o.isTranscendental then 8 else 1
  | _ => 1

/-- The largest cost. -/
def maxCost : Nat := 18446744073709551615

/-- The sum of two costs, or the largest cost if the sum is greater. -/
def addCost (a b : Nat) : Nat := min (a + b) maxCost

namespace Term

/-- Computes a value for each cell, in order, from the values of its operands, and gives that of
the root.  An operand that has no value yet has the default one. -/
def fold {α : Type} (default : α) (f : Head → List α → α) (t : Term) : α :=
  let values := t.cells.foldl
    (fun (values : Array α) c =>
      values.push (f c.head (c.operands.map fun i => values[i]?.getD default)))
    #[]
  values.back?.getD default

/-- Adds a cell at the end and gives its place. -/
def push (t : Term) (c : Cell) : Nat × Term := (t.cells.size, ⟨t.cells.push c⟩)

/-- The cost of a term: eight for each transcendental function in it and one for each other head,
with a shared part counted at each of its places. -/
def cost (t : Term) : Nat := t.fold 0 fun h costs => costs.foldl addCost h.cost

/-- The text of a term: its head, with the operands behind it in parentheses if it has some. -/
def text (t : Term) : String :=
  t.fold "" fun h args =>
    if args.isEmpty then h.text else "(" ++ String.intercalate " " (h.text :: args) ++ ")"

end Term

end Resolvent

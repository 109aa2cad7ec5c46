import Std.Data.ExtHashMap
import Resolvent.Expression.Node
import Resolvent.Expression.Symbols
import Resolvent.Number.Rational

/-!
# The node store

An arena stores nodes so that equal nodes have equal handles: an index gives the handle of a stored
node, and a node that is stored already is not stored again.  The number of nodes is limited.  A
checkpoint remembers how many nodes and names there are, and rolling back to it forgets the later
ones, so that an abandoned computation leaves nothing behind.

Operations that may run out of nodes are of type `Build`: they answer a result or `Exhausted`, and
the arena in either case.  `Arena.expression?` reads a stored expression back.
-/

namespace Resolvent

/-- The arena has no room for another node. -/
structure Exhausted where
  /-- The largest number of nodes. -/
  limit : Nat
  deriving DecidableEq, Repr

/-- What to tell the user. -/
def Exhausted.message (e : Exhausted) : String :=
  "expression arena exhausted (" ++ toString e.limit ++ " nodes)"

/-- A length of an arena to return to. -/
structure Checkpoint where
  /-- The number of nodes. -/
  nodes : Nat
  /-- The number of symbol names. -/
  symbols : Nat
  deriving DecidableEq, Repr

/-- A store of nodes and symbol names. -/
structure Arena where
  /-- The nodes, each at the place of its handle. -/
  nodes : Array Node := #[]
  /-- The handles of the stored nodes. -/
  index : Std.ExtHashMap Node Handle := ∅
  /-- The names of the symbols. -/
  symbols : Symbols := {}
  /-- The largest number of nodes. -/
  limit : Nat := 4294967295

/-- Computations that store nodes and may stop with an error; what they stored remains. -/
abbrev BuildT (ε : Type) := ExceptT ε (StateM Arena)

/-- Computations that store nodes and may run out of them. -/
abbrev Build := BuildT Exhausted

namespace Arena

/-- The largest number of nodes any arena has. -/
def maxLimit : Nat := 4294967295

/-- An arena without nodes that takes at most `limit` of them. -/
def withLimit (limit : Nat) : Arena := { limit := if limit ≤ maxLimit then limit else maxLimit }

/-- The number of nodes. -/
def size (A : Arena) : Nat := A.nodes.size

/-- The node of a handle. -/
def node? (A : Arena) (h : Handle) : Option Node := A.nodes[h.index]?

/-- The handle stands for a node. -/
def contains (A : Arena) (h : Handle) : Bool := decide (h.index < A.nodes.size)

/-- The present length. -/
def checkpoint (A : Arena) : Checkpoint := ⟨A.nodes.size, A.symbols.size⟩

/-- Forgets the nodes and names that came after a checkpoint. -/
def rollback (A : Arena) (c : Checkpoint) : Arena :=
  { A with
    nodes := A.nodes.take c.nodes
    index := (A.nodes.toList.drop c.nodes).foldl (fun index n => index.erase n) A.index
    symbols := A.symbols.truncate c.symbols }

/-- The number of a symbol name. -/
def symbolId? (A : Arena) (name : String) : Option Nat := A.symbols.id? name

/-- The name of a symbol. -/
def symbolName? (A : Arena) (id : Nat) : Option String := A.symbols.name? id

/-- The name of a symbol in texts. -/
def symbolText (A : Arena) (id : Nat) : String := (A.symbolName? id).getD "?"

/-- The expression that a node stands for, given those of its operands. -/
def assemble? (read : Handle → Option Expression) : Node → Option Expression
  | .integer n => some (.integer n)
  | .fraction q => some (.fraction q)
  | .float bits => some (.float bits)
  | .symbol id => some (.symbol id)
  | .constant c => some (.constant c)
  | .undefined => some .undefined
  | .unreal => some .unreal
  | .sum args => (args.mapM read).map .sum
  | .product args => (args.mapM read).map .product
  | .power a b => do return .power (← read a) (← read b)
  | .opposite a => (read a).map .opposite
  | .quotient a b => do return .quotient (← read a) (← read b)
  | .apply code args => (args.mapM read).map (.apply code)
  | .call name arg => (read arg).map (.call name)
  | .matrix rows columns args => (args.mapM read).map (.matrix rows columns)

/-- The expression of a handle, if it is at most `depth` nodes deep. -/
def read? (A : Arena) : Nat → Handle → Option Expression
  | 0, _ => none
  | depth + 1, h => (A.node? h).bind (assemble? (A.read? depth))

/-- The expression of a handle, unless a handle in it stands for no node.  No expression is deeper
than there are nodes. -/
def expression? (A : Arena) (h : Handle) : Option Expression := A.read? A.nodes.size h

/-- The expression of a handle; a handle that stands for no node has an undefined value. -/
def expression (A : Arena) (h : Handle) : Expression := (A.expression? h).getD .undefined

theorem read?_succ (A : Arena) (depth : Nat) (h : Handle) :
    A.read? (depth + 1) h = (A.node? h).bind (assemble? (A.read? depth)) := rfl

theorem node?_isSome_iff (A : Arena) (h : Handle) :
    (A.node? h).isSome = true ↔ A.contains h = true := by
  simp [node?, contains]

end Arena

namespace Build

/-- Turns the error of a computation into one of another kind. -/
def lift {ε : Type} {α : Type} (f : Exhausted → ε) (m : Build α) : BuildT ε α := ExceptT.adapt f m

/-- The handle of a node, which is stored if it is new. -/
def intern (n : Node) : Build Handle := do
  let A ← getThe Arena
  match A.index[n]? with
  | some h => return h
  | none =>
    if A.nodes.size < A.limit then
      let h : Handle := ⟨A.nodes.size⟩
      modifyThe Arena fun A => { A with nodes := A.nodes.push n, index := A.index.insert n h }
      return h
    else throw ⟨A.limit⟩

/-- The number of a symbol name. -/
def internSymbol (name : String) : Build Nat :=
  modifyGetThe Arena fun A =>
    let (id, symbols) := A.symbols.intern name
    (id, { A with symbols := symbols })

/-- A whole number of 64 bits. -/
def integer (n : Int) : Build Handle := intern (.integer n)

/-- A rational number. -/
def rational (q : Rat) : Build Handle :=
  match Rational.toInt64? q with
  | some n => integer n
  | none => intern (.fraction q)

/-- A double.  The two zeros are one. -/
def float (x : Float) : Build Handle := intern (.float (if x == 0.0 then 0.0 else x).toBits)

/-- A symbol, by name. -/
def symbol (name : String) : Build Handle := do
  let id ← internSymbol name
  intern (.symbol id)

/-- A constant. -/
def constant (c : Constant) : Build Handle := intern (.constant c)

/-- The value that does not exist. -/
def undefined : Build Handle := intern .undefined

/-- The value that is not real. -/
def unreal : Build Handle := intern .unreal

/-- A sum; that of no terms is zero and that of one is the term. -/
def sum : List Handle → Build Handle
  | [] => integer 0
  | [h] => return h
  | hs => intern (.sum hs)

/-- A product; that of no factors is one and that of one is the factor. -/
def product : List Handle → Build Handle
  | [] => integer 1
  | [h] => return h
  | hs => intern (.product hs)

/-- A power. -/
def power (base exponent : Handle) : Build Handle := intern (.power base exponent)

/-- An opposite. -/
def opposite (h : Handle) : Build Handle := intern (.opposite h)

/-- A quotient. -/
def quotient (numerator denominator : Handle) : Build Handle :=
  intern (.quotient numerator denominator)

/-- A difference, which is the sum with the opposite. -/
def difference (a b : Handle) : Build Handle := do
  let negated ← opposite b
  sum [a, negated]

/-- A built-in function, by its code. -/
def applyCode (code : Nat) (args : List Handle) : Build Handle := intern (.apply code args)

/-- A built-in function. -/
def apply (f : Builtin) (args : List Handle) : Build Handle := applyCode f.code args

/-- A user function, by name. -/
def call (name : String) (arg : Handle) : Build Handle := do
  let id ← internSymbol name
  intern (.call id arg)

/-- A matrix with its entries row by row. -/
def matrix (rows columns : Nat) (entries : List Handle) : Build Handle :=
  intern (.matrix rows columns entries)

theorem sum_singleton (h : Handle) : sum [h] = pure h := rfl

theorem product_singleton (h : Handle) : product [h] = pure h := rfl

end Build

end Resolvent

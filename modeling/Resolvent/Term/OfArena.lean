import Std.Data.HashMap
import Resolvent.Expression.Printer
import Resolvent.Term.Import

/-!
# Terms of expressions

The term of a stored expression.  Sums and products become chains of two operands each, and a power
of `ℯ` the exponential function.  What terms have no form for (fractions, doubles, user functions,
matrices, undefined and unreal values, unknown functions) becomes a placeholder symbol `$k` for
the `k`-th such expression.
-/

namespace Resolvent

/-- A term under construction. -/
structure Lowering where
  /-- The cells so far. -/
  term : Term := {}
  /-- The expressions that placeholders stand for. -/
  placeholders : Array Handle := #[]
  /-- The places of the expressions that have one. -/
  places : Std.HashMap Handle Nat := ∅

namespace Lowering

/-- Appends a cell. -/
def push (c : Cell) : StateM Lowering Nat :=
  modifyGet fun s =>
    let (i, term) := s.term.push c
    (i, { s with term := term })

/-- Remembers the place of an expression. -/
def remember (h : Handle) (i : Nat) : StateM Lowering Nat :=
  modifyGet fun s => (i, { s with places := s.places.insert h i })

/-- Appends a symbol that stands for an expression as a whole. -/
def pushPlaceholder (h : Handle) : StateM Lowering Nat := do
  let k ← modifyGet fun s => (s.placeholders.size, { s with placeholders := s.placeholders.push h })
  push ⟨.symbol ("$" ++ toString k), []⟩

/-- Appends a chain of operators over operands that have places. -/
def pushChain (o : Operator) : List Nat → StateM Lowering Nat
  | [] => push ⟨.number 0, []⟩
  | first :: rest => rest.foldlM (fun i j => push ⟨.op o, [i, j]⟩) first

/-- The node is the constant `ℯ`. -/
def isE (A : Arena) (h : Handle) : Bool := A.node? h == some (.constant .e)

/-- Appends the cells of a built-in function.  The first argument is appended even if the function
turns out to have no form. -/
def pushFunction (go : Handle → StateM Lowering Nat) (h : Handle) (code : Nat)
    (args : List Handle) : StateM Lowering Nat :=
  match args with
  | [] => pushPlaceholder h
  | first :: rest => do
    let i ← go first
    match Builtin.ofCode? code, rest with
    | none, _ => pushPlaceholder h
    | some .root, [] => pushPlaceholder h
    | some .root, index :: _ =>
      let j ← go index
      push ⟨.op (.apply .root), [i, j]⟩
    | some f, _ => push ⟨.op (.apply f), [i]⟩

/-- Appends the cells of a node. -/
def pushNode (A : Arena) (go : Handle → StateM Lowering Nat) (h : Handle) :
    Node → StateM Lowering Nat
  | .integer n => push ⟨.number n, []⟩
  | .symbol id =>
    match A.symbolName? id with
    | some name => push ⟨.symbol name, []⟩
    | none => pushPlaceholder h
  | .constant c => push ⟨.symbol c.text, []⟩
  | .sum args => do pushChain .add (← args.mapM go)
  | .product args => do pushChain .mul (← args.mapM go)
  | .power base exponent =>
    if isE A base then do
      let i ← go exponent
      push ⟨.op (.apply .exp), [i]⟩
    else do
      let i ← go base
      let j ← go exponent
      push ⟨.op .pow, [i, j]⟩
  | .opposite arg => do
    let i ← go arg
    push ⟨.op .neg, [i]⟩
  | .quotient numerator denominator => do
    let i ← go numerator
    let j ← go denominator
    push ⟨.op .div, [i, j]⟩
  | .apply code args => pushFunction go h code args
  | _ => pushPlaceholder h

/-- Appends the cells of an expression at most `depth` nodes deep, unless it has a place. -/
def pushExpression (A : Arena) : Nat → Handle → StateM Lowering Nat
  | 0, h => pushPlaceholder h
  | depth + 1, h => do
    match (← get).places[h]? with
    | some i => return i
    | none =>
      let i ← match A.node? h with
        | some n => pushNode A (pushExpression A depth) h n
        | none => pushPlaceholder h
      remember h i

end Lowering

/-- The term of a stored expression, and the expressions that its placeholders stand for. -/
def Arena.term (A : Arena) (h : Handle) : Term × List Handle :=
  let s := ((Lowering.pushExpression A A.nodes.size h).run {}).2
  (s.term, s.placeholders.toList)

end Resolvent

import Resolvent.Solve.Resolution

/-!
# The store of equations

The store keeps up to six equations and what the last solve has left behind.  The nodes of a solve
are released before the next one: `EquationStore.tidy` rolls the arena back to where the solve
began, unless something has been stored since or the equations and definitions refer to its nodes.
`EquationStore.solve` then goes through the passes of `EquationStore.resolve`.
-/

namespace Resolvent

namespace EquationStore

/-! ### Equations -/

/-- The equation in a slot. -/
def equation? (s : EquationStore) (slot : Nat) : Option Equation := s.slots[slot]?.join

/-- The number of stored equations. -/
def size (s : EquationStore) : Nat := s.equations.length

/-- The first free slot. -/
def freeSlot? (s : EquationStore) : Option (Fin maxVariables) :=
  (List.finRange maxVariables).find? fun i => s.slots[i].isNone

/-- Puts an equation into the first free slot. -/
def add (s : EquationStore) (e : Equation) : Except StoreError (Nat × EquationStore) :=
  match s.freeSlot? with
  | some i => .ok (i, { s with slots := s.slots.set i (some e) })
  | none => .error (.full maxVariables)

/-- Takes the equation out of a slot. -/
def remove (s : EquationStore) (slot : Nat) : Except StoreError (Equation × EquationStore) :=
  match s.equation? slot with
  | some e => .ok (e, { s with slots := s.slots.setIfInBounds slot none })
  | none => .error (.invalidIndex slot)

/-- Takes all equations out. -/
def removeAll (s : EquationStore) : EquationStore :=
  { s with slots := Vector.replicate maxVariables none }

/-! ### Releasing nodes -/

/-- The equations or the definitions refer to a node from a place on. -/
def refersBeyond (s : EquationStore) (Γ : Context Handle) (start : Nat) : Bool :=
  (s.equations.flatMap (fun e => [e.lhs, e.rhs]) ++ Γ.bodies).any fun h => decide (start ≤ h.index)

/-- The arena without the nodes of the last solve, where they can be released. -/
def release (s : EquationStore) (Γ : Context Handle) (A : Arena) : Arena :=
  match s.footprint with
  | some f =>
    if A.size = f.stop ∧ s.refersBeyond Γ f.start.nodes = false then A.rollback f.start else A
  | none => A

/-- Drops the results of the last solve and what is known of its nodes. -/
def clear (s : EquationStore) : EquationStore := { s.resetResults with footprint := none }

/-- Drops the results of the last solve and releases its nodes. -/
def tidy (s : EquationStore) (Γ : Context Handle) (A : Arena) : EquationStore × Arena :=
  (s.clear, s.release Γ A)

/-- Reads an equation and stores it.  The results of the last solve are dropped first, unless there
is no slot for the equation. -/
def addText (s : EquationStore) (Γ : Context Handle) (read : Term.Reader) (text : String)
    (A : Arena) : Except StoreError Nat × EquationStore × Arena :=
  if s.freeSlot?.isNone then (.error (.full maxVariables), s, A)
  else
    let (s, A) := s.tidy Γ A
    match Equation.parse read text A with
    | (.error x, A) => (.error x, s, A)
    | (.ok e, A) =>
      match s.add e with
      | .ok (slot, s) => (.ok slot, s, A)
      | .error x => (.error x, s, A)

/-! ### Solving -/

/-- Solves the stored equations. -/
def solve (s : EquationStore) (Γ : Context Handle) (options : SolveOptions) (A : Arena) :
    Except SolveError Status × EquationStore × Arena :=
  let (s, A) := s.tidy Γ A
  conclude A.checkpoint (resolve Γ options A.checkpoint .boundValues s A)

/-! ### Results -/

/-- The number of solutions; behind a search, the number of roots found. -/
def count (s : EquationStore) : SolutionCount :=
  if s.results.kind = .search then .finite s.results.roots.roots.length else s.results.count

/-- The solution with a number. -/
def solution? (s : EquationStore) (index : Nat) : Option Solution := s.results.solutions[index]?

/-- Values of predefined variables were used. -/
def usesStoredValues (s : EquationStore) : Bool :=
  s.results.replaced && !s.catalog.predefined.isEmpty

/-! ### Searching -/

/-- Sets a bound of the interval. -/
def setBound (s : EquationStore) (index : Nat) (x : Float) : Except StoreError EquationStore :=
  if s.results.kind ≠ .search then .error .notMonovariable
  else if !x.isFinite then .error .nonFiniteBound
  else
    match s.interval.set? index x with
    | some i => .ok { s with interval := i }
    | none => .error (.invalidBound index)

/-- The equation to search with, as long as its expression is stored. -/
def searchEquation? (s : EquationStore) (A : Arena) : Option SearchEquation :=
  s.results.search.filter fun e => A.contains e.expression

/-- Searches the interval for roots. -/
def search (s : EquationStore) (Γ : Context Handle) (options : SolveOptions) (A : Arena) :
    Except StoreError EquationStore :=
  match s.searchEquation? A with
  | none => .error .notMonovariable
  | some e =>
    let f := e.valueAt (Γ.definitions A) (A.expression e.expression)
    let roots := RootSearch.scan f s.interval.min s.interval.max options.maxRoots
    .ok { s with results := { s.results with roots, replaced := decide (e.mode = .replaceAll) } }

end EquationStore

end Resolvent

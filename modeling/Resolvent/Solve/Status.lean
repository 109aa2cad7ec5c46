import Resolvent.Expression.Arena
import Resolvent.Term.Import

/-!
# Outcomes and stages of a solve

How a solve ends (`Status`, `SolveError`), and how the store of equations can be misused
(`StoreError`), with the message for each.

A stage of a solve fills in something of its own (a catalog, a list of solutions, the whole store)
and stores nodes.  It may stop early, because there is a status to report or because the arena is
full; what it has filled in and stored up to then remains.
-/

namespace Resolvent

/-- How a solve ended. -/
inductive Status where
  /-- There are solutions. -/
  | noError
  /-- An equation is undefined or contains a matrix. -/
  | equationUndefined
  /-- An equation has no real value. -/
  | equationUnreal
  /-- There are more unknowns than the solver takes. -/
  | tooManyVariables
  /-- There are several equations or unknowns, and they are not linear. -/
  | nonLinearSystem
  /-- A single equation needs a search on an interval. -/
  | requireApproximateSolution
  deriving DecidableEq, Repr

/-- Whether the status is an error. -/
def Status.isError (s : Status) : Bool := s != .noError

/-- What to tell the user. -/
def Status.message : Status → String
  | noError => "solutions found"
  | equationUndefined => "undefined equation"
  | equationUnreal => "nonreal equation"
  | tooManyVariables => "too many variables"
  | nonLinearSystem => "system is non-linear"
  | requireApproximateSolution => "enter an interval to search for solutions"

/-- How the store of equations can be misused. -/
inductive StoreError where
  /-- Every slot holds an equation. -/
  | full (slots : Nat)
  /-- A slot holds no equation. -/
  | invalidIndex (slot : Nat)
  /-- An interval has the bounds 0 and 1 only. -/
  | invalidBound (index : Nat)
  /-- A bound is no finite number. -/
  | nonFiniteBound
  /-- The system is not one equation in one unknown that needs a search. -/
  | notMonovariable
  /-- A text is no equation. -/
  | malformed (text : String)
  /-- A side of an equation is no expression. -/
  | unreadable (e : ImportError)
  deriving DecidableEq, Repr

/-- What to tell the user. -/
def StoreError.message : StoreError → String
  | full slots => "at most " ++ toString slots ++ " equations"
  | invalidIndex slot => "no equation at index " ++ toString slot
  | invalidBound index => "invalid interval bound index " ++ toString index
  | nonFiniteBound => "interval bound must be finite"
  | notMonovariable => "the system is not monovariable"
  | malformed text => "malformed equation: " ++ text
  | unreadable e => e.message

/-- The largest number of equations of a system, and of its unknowns. -/
def maxVariables : Nat := 6

/-! ### Stages -/

/-- Why a solve has no status. -/
inductive SolveError where
  /-- The arena is full. -/
  | outOfMemory
  /-- There is no room for nested calls: the program ends without an answer. -/
  | overflow
  deriving DecidableEq, Repr

/-- What to tell the user. -/
def SolveError.message : SolveError → String
  | outOfMemory => "not enough memory"
  | overflow => "stack overflow"

/-- Why a stage of a solve stops early. -/
inductive Halt where
  /-- There is a status to report. -/
  | status (s : Status)
  /-- There is no status. -/
  | error (x : SolveError)
  deriving DecidableEq, Repr

/-- Computations that change a state of their own, store nodes, and may stop early. -/
abbrev Stage (σ : Type) := ExceptT Halt (StateM (σ × Arena))

namespace Stage

variable {σ τ α : Type}

/-- Something of the state. -/
def look (f : σ → τ) : Stage σ τ := fun x => (.ok (f x.1), x)

/-- The arena. -/
def arena : Stage σ Arena := fun x => (.ok x.2, x)

/-- Changes the state. -/
def update (f : σ → σ) : Stage σ Unit := fun x => (.ok (), (f x.1, x.2))

/-- Stops early. -/
def halt (h : Halt) : Stage σ α := fun x => (.error h, x)

/-- Stores nodes. -/
def build (m : Build α) : Stage σ α := fun (s, A) =>
  match m A with
  | (.ok a, A) => (.ok a, (s, A))
  | (.error _, A) => (.error (.error .outOfMemory), (s, A))

/-- Runs a computation on the arena; an error becomes its answer. -/
def settle {ε : Type} (m : BuildT ε α) : Stage σ (Except ε α) := fun (s, A) =>
  let (r, A) := m A
  (.ok r, (s, A))

/-- Runs a stage on a part of the state. -/
def onPart (get : σ → τ) (put : τ → σ → σ) (m : Stage τ α) : Stage σ α := fun (s, A) =>
  let (r, (t, A)) := m (get s, A)
  (r, (put t s, A))

end Stage

end Resolvent

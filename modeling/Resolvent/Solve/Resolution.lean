import Resolvent.Solve.Pass

/-!
# The resolution of a system

A solve first replaces stored variables by their values.  Where that fails, or leaves no solution or
infinitely many, and the equations mention stored variables, it is done again with these as
unknowns.  If the first pass was a success and the second is none, and does not ask for a search
either, the first is made once more.

Each pass begins with the arena as it was at the start and without results.  A pass that runs out of
nodes leaves nothing behind and ends the solve.
-/

namespace Resolvent

/-- Which pass of a solve is made. -/
inductive Resolution where
  /-- Stored variables are replaced by their values. -/
  | boundValues
  /-- Stored variables are unknowns, behind a first pass that ended with a status. -/
  | freeVariables (first : Status)
  /-- The first pass is made again, because it is the better one. -/
  | revertToBoundValues
  deriving DecidableEq, Repr

/-- What becomes of stored variables. -/
def Resolution.mode : Resolution → Mode
  | boundValues | revertToBoundValues => .replaceAll
  | freeVariables _ => .functionsOnly

/-- The number of passes that have been made before. -/
def Resolution.before : Resolution → Nat
  | boundValues => 0
  | freeVariables _ => 1
  | revertToBoundValues => 2

/-- The configuration of a later pass; a pass asks the simplifier at most twice for each equation. -/
def SolveOptions.afterPasses (o : SolveOptions) (n : Nat) : SolveOptions :=
  { o with moment := o.moment + n * (2 * maxVariables) }

@[simp] theorem SolveOptions.afterPasses_zero (o : SolveOptions) : o.afterPasses 0 = o := by
  cases o
  simp [afterPasses]

namespace EquationStore

/-- The stored variables are to be solved for. -/
def needsFreeVariables (s : EquationStore) (status : Status) : Bool :=
  !s.catalog.predefined.isEmpty &&
    (status != .noError || s.results.count == .finite 0 || s.results.count == .infinite)

/-- The pass that follows one that has ended with a status, if there is one. -/
def next? (s : EquationStore) (status : Status) : Resolution → Option Resolution
  | .boundValues => if s.needsFreeVariables status then some (.freeVariables status) else none
  | .freeVariables first =>
    if first == .noError && status != .noError && status != .requireApproximateSolution then
      some .revertToBoundValues
    else none
  | .revertToBoundValues => none

theorem remaining_next? {s : EquationStore} {status : Status} {r next : Resolution}
    (h : s.next? status r = some next) : 2 - next.before < 2 - r.before := by
  cases r <;> grind [next?, Resolution.before]

/-- Makes one pass from where the solve has started, without results.  Without room for its nodes
everything it has stored is forgotten. -/
def attempt (s : EquationStore) (Γ : Context Handle) (options : SolveOptions) (start : Checkpoint)
    (r : Resolution) (A : Arena) : Except SolveError Status × EquationStore × Arena :=
  match solvePass Γ (options.afterPasses r.before) r.mode (s.resetResults, A.rollback start) with
  | (.ok status, s, A) => (.ok status, s, A)
  | (.error (.status status), s, A) => (.ok status, s, A)
  | (.error (.error x), s, A) =>
    (.error x, { s.resetResults with catalog := {} }, A.rollback start)

/-- Makes a pass and those that follow it. -/
def resolve (Γ : Context Handle) (options : SolveOptions) (start : Checkpoint) (r : Resolution)
    (s : EquationStore) (A : Arena) : Except SolveError Status × EquationStore × Arena :=
  match s.attempt Γ options start r A with
  | (.error x, s, A) => (.error x, s, A)
  | (.ok status, s, A) =>
    match h : s.next? status r with
    | some next =>
      have := remaining_next? h
      resolve Γ options start next s A
    | none => (.ok status, s, A)
termination_by 2 - r.before

/-- Notes how a solve has ended, and which nodes are its own. -/
def conclude (start : Checkpoint) :
    Except SolveError Status × EquationStore × Arena →
      Except SolveError Status × EquationStore × Arena
  | (.error x, s, A) => (.error x, s, A)
  | (.ok status, s, A) =>
    (.ok status,
      { s with results := { s.results with status }, footprint := some ⟨start, A.size⟩ }, A)

end EquationStore

end Resolvent

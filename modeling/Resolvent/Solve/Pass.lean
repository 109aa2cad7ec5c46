import Resolvent.Solve.Linear
import Resolvent.Solve.Polynomial
import Resolvent.Solve.State

/-!
# One pass of a solve

A pass classifies the variables of the stored equations with stored variables either replaced or
kept symbolic, and solves the system: as a linear system, as a quadratic or cubic equation in one
unknown, or by a search on an interval that the user chooses.  It fills in the catalog and the
results of the store, and a search begins with the standard interval.
-/

namespace Resolvent

/-- The preferences of a solve: complex numbers are admitted where an equation mentions the
imaginary unit. -/
def Preferences.forEquations (p : Preferences) (Δ : Definitions) (mode : Mode)
    (es : List Expression) : Preferences :=
  if es.any fun e => e.mentionsImaginary Δ mode then p.upgraded else p

/-- What the first canonical form of a pass depends on besides its expression. -/
def SolveOptions.canonizer (o : SolveOptions) (Γ : Context Handle) (mode : Mode)
    (p : Preferences) : Canonizer := ⟨Γ, mode, p, o.simplifier, o.moment⟩

namespace EquationStore

/-- Changes the results. -/
def record (f : Results → Results) : Stage EquationStore Unit :=
  Stage.update fun s => { s with results := f s.results }

/-- Runs a stage on the catalog. -/
def onCatalog {α : Type} (m : Stage Catalog α) : Stage EquationStore α :=
  Stage.onPart catalog (fun k s => { s with catalog := k }) m

/-- Runs a stage on the list of solutions. -/
def onSolutions {α : Type} (m : Stage (List Solution) α) : Stage EquationStore α :=
  Stage.onPart (fun s => s.results.solutions)
    (fun l s => { s with results := { s.results with solutions := l } }) m

/-- Lists the solutions that answers give. -/
def listAnswers (options : SolveOptions) (p : Preferences) (answers : List Answer) :
    Stage EquationStore Status := do
  let status ← onSolutions (Solution.presentAll p options.exam .noError answers)
  record fun r => { r with solutions := r.solutions.take maxExactSolutions }
  record fun r => { r with count := .finite r.solutions.length }
  return status

/-- Leaves the roots of an equation to a search, on the standard interval. -/
def prepareSearch (e : SearchEquation) : Stage EquationStore Status := do
  record fun r => { r with kind := .search, degree := -1 }
  Stage.update fun s => { s with interval := {} }
  record fun r => { r with search := some e }
  return .requireApproximateSolution

/-- Solves a single equation that is not linear. -/
def solveEquation (options : SolveOptions) (p : Preferences) (mode : Mode) (hs : List Handle) :
    Stage EquationStore Status := do
  let k ← Stage.look catalog
  match k.unknowns, k.forms, hs with
  | [unknown], [f], [h] =>
    match f.polynomialRoots? p unknown with
    | some roots =>
      record fun r => { r with kind := .polynomial, degree := roots.degree }
      listAnswers options p roots.answers
    | none => prepareSearch ⟨h, unknown, mode, p⟩
  | _, _, _ => Stage.halt (.status .nonLinearSystem)

/-- Solves a system whose variables are classified. -/
def solveCatalog (options : SolveOptions) (p : Preferences) (mode : Mode) (hs : List Handle) :
    Stage EquationStore Status := do
  let k ← Stage.look catalog
  match LinearSystem.solve k.forms k.unknowns with
  | .unique values => listAnswers options p (values.map .exact)
  | .inconsistent => return .noError
  | .underdetermined =>
    record fun r => { r with count := .infinite }
    return .noError
  | .notLinear => solveEquation options p mode hs

/-- Classifies and solves the system of equations that say that expressions are zero. -/
def solveForms (Γ : Context Handle) (options : SolveOptions) (mode : Mode) (hs : List Handle) :
    Stage EquationStore Status := do
  let A ← Stage.arena
  let p := options.preferences.forEquations (Γ.definitions A) mode (hs.map A.expression)
  onCatalog (Catalog.classify (options.canonizer Γ mode p) hs)
  solveCatalog options p mode hs

/-- Solves the stored equations once. -/
def solvePass (Γ : Context Handle) (options : SolveOptions) (mode : Mode) :
    Stage EquationStore Status := do
  record fun r => { r with replaced := decide (mode = .replaceAll) }
  let es ← Stage.look equations
  let hs ← Stage.build (es.mapM Equation.standardForm)
  solveForms Γ options mode hs

end EquationStore

end Resolvent

import Resolvent.Form.Canonical
import Resolvent.Solve.Status

/-!
# The variables of a system

The catalog of a system lists the unknowns of its equations in the order in which they are met, the
predefined variables, which are symbols that have a stored value, and the canonical form of each
equation.  Predefined variables are looked for with variables kept symbolic, and before an equation
can fail, so that it shows whether a failure may be due to them.
-/

namespace Resolvent

/-- The variables and forms of a system. -/
structure Catalog where
  /-- The symbols to solve for. -/
  unknowns : List Nat := []
  /-- The symbols with a stored value. -/
  predefined : List Nat := []
  /-- The form of each equation, which is to be zero. -/
  forms : List Form := []
  deriving DecidableEq

namespace Catalog

/-- The name of the symbol has a stored value. -/
def isPredefined (Γ : Context Handle) (A : Arena) (id : Nat) : Bool :=
  ((A.symbolName? id).bind Γ.value?).isSome

/-- Notes the predefined variables of a canonical form. -/
def notePredefined (k : Catalog) (Γ : Context Handle) (A : Arena) :
    Except CanonicalError Canonical → Catalog
  | .ok c =>
    { k with
      predefined := (collectUnknowns (isPredefined Γ A) maxVariables c.symbols k.predefined).1 }
  | .error _ => k

/-- Notes the unknowns of an equation and its form.  Unknowns without room stop the solve, and the
form is left out. -/
def noteForm (c : Canonical) : Stage Catalog Unit := do
  let known ← Stage.look unknowns
  let found := collectUnknowns (fun _ => true) maxVariables c.symbols known
  Stage.update fun k => { k with unknowns := found.1 }
  match found.2 with
  | some _ => Stage.halt (.status .tooManyVariables)
  | none => Stage.update fun k => { k with forms := k.forms ++ [c.form] }

/-- The program ends without an answer. -/
def overflows : Except CanonicalError Canonical → Bool
  | .error .overflow => true
  | _ => false

/-- Notes what has become of an equation. -/
def noteResult : Except CanonicalError Canonical → Stage Catalog Unit
  | .ok c => noteForm c
  | .error .undefined | .error .matrix => Stage.halt (.status .equationUndefined)
  | .error .unreal => Stage.halt (.status .equationUnreal)
  | .error (.exhausted _) => Stage.halt (.error .outOfMemory)
  | .error .overflow => Stage.halt (.error .overflow)

theorem noteResult_of_overflows {r : Except CanonicalError Canonical} (h : overflows r = true) :
    noteResult r = Stage.halt (.error .overflow) := by
  unfold overflows at h
  split at h
  · rfl
  · cases h

/-- Classifies the variables of one equation. -/
def noteEquation (c : Canonizer) (h : Handle) : Stage Catalog Unit := do
  let known ← Stage.look predefined
  if known.length < maxVariables then
    let symbolic ← Stage.settle (Build.canonical { c with mode := .functionsOnly } h)
    let A ← Stage.arena
    Stage.update fun k => k.notePredefined c.context A symbolic
    if c.mode = .functionsOnly ∨ overflows symbolic then noteResult symbolic
    else noteResult (← Stage.settle (Build.canonical c.later h))
  else noteResult (← Stage.settle (Build.canonical c h))

/-- Classifies the variables of equations, up to the first that stops the solve. -/
def noteAll (c : Canonizer) : List Handle → Stage Catalog Unit
  | [] => return ()
  | h :: hs => do
    noteEquation c h
    noteAll c.later.later hs

/-- Classifies the variables of the equations that say that expressions are zero, in a catalog that
is cleared first. -/
def classify (c : Canonizer) (hs : List Handle) : Stage Catalog Unit := do
  Stage.update fun _ => {}
  noteAll c hs

theorem notePredefined_unknowns (k : Catalog) (Γ : Context Handle) (A : Arena)
    (r : Except CanonicalError Canonical) : (k.notePredefined Γ A r).unknowns = k.unknowns := by
  cases r <;> rfl

end Catalog

end Resolvent

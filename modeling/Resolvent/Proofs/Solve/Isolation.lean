import Resolvent.Proofs.Expression.Along
import Resolvent.Solve.Resolution

/-!
# What a pass depends on

Two stores with the same equations and the same results may differ in what the passes before have
left in the catalog, in the interval of a search and in the footprint.  A pass does not see the
difference: run in the same arena it ends in the same way, with the same results, and, unless it
runs out of nodes, with the same catalog (`EquationStore.solvePass_congr`).

The proof runs the two passes side by side.  `Stage.InStep` says that a stage, run from two related
states in one arena, gives the same answer and the same arena and leads to related states again.
-/

namespace Resolvent

namespace Stage

variable {σ τ α β : Type}

/-- Run from related states in the same arena, the stage does the same, and the states that it ends
in are related. -/
def InStep (R : σ → σ → Prop) (m : Stage σ α) : Prop :=
  ∀ s t A, R s t → (m (s, A)).1 = (m (t, A)).1 ∧ (m (s, A)).2.2 = (m (t, A)).2.2 ∧
    R (m (s, A)).2.1 (m (t, A)).2.1

namespace InStep

variable {R : σ → σ → Prop}

theorem pure (a : α) : InStep R (Pure.pure a) := fun _ _ _ h => ⟨rfl, rfl, h⟩

theorem bind {m : Stage σ α} {f : α → Stage σ β} (hm : InStep R m) (hf : ∀ a, InStep R (f a)) :
    InStep R (m >>= f) := by
  intro s t A h
  have hrun := hm s t A h
  rw [bind_run, bind_run]
  rcases hs : m (s, A) with ⟨r, s', B⟩
  rcases ht : m (t, A) with ⟨r', t', B'⟩
  rw [hs, ht] at hrun
  obtain ⟨rfl, rfl, hrelated⟩ := hrun
  cases r with
  | error e => exact ⟨rfl, rfl, hrelated⟩
  | ok a => exact hf a s' t' B hrelated

theorem look {f : σ → τ} (hf : ∀ s t, R s t → f s = f t) : InStep R (Stage.look f) :=
  fun s t _ h => ⟨congrArg Except.ok (hf s t h), rfl, h⟩

theorem arena : InStep R Stage.arena := fun _ _ _ h => ⟨rfl, rfl, h⟩

theorem halt (e : Halt) : InStep R (Stage.halt e : Stage σ α) := fun _ _ _ h => ⟨rfl, rfl, h⟩

theorem update {f : σ → σ} (hf : ∀ s t, R s t → R (f s) (f t)) : InStep R (Stage.update f) :=
  fun s t _ h => ⟨rfl, rfl, hf s t h⟩

theorem onPart {get : σ → τ} {put : τ → σ → σ} (m : Stage τ α)
    (hget : ∀ s t, R s t → get s = get t) (hput : ∀ u s t, R s t → R (put u s) (put u t)) :
    InStep R (Stage.onPart get put m) := by
  intro s t A h
  unfold Stage.onPart
  dsimp only
  rw [hget s t h]
  exact ⟨rfl, rfl, hput _ s t h⟩

end InStep

end Stage

namespace EquationStore

/-- The stores differ at most in the interval and the footprint. -/
structure Alike (s t : EquationStore) : Prop where
  slots : s.slots = t.slots
  catalog : s.catalog = t.catalog
  results : s.results = t.results

variable {α : Type}

theorem record_inStep (f : Results → Results) : Stage.InStep Alike (record f) :=
  .update fun _ _ h => ⟨h.slots, h.catalog, congrArg f h.results⟩

theorem onCatalog_inStep (m : Stage Catalog α) : Stage.InStep Alike (onCatalog m) :=
  .onPart m (fun _ _ h => h.catalog) fun _ _ _ h => ⟨h.slots, rfl, h.results⟩

theorem onSolutions_inStep (m : Stage (List Solution) α) : Stage.InStep Alike (onSolutions m) :=
  .onPart m (fun _ _ h => congrArg Results.solutions h.results) fun u _ _ h =>
    ⟨h.slots, h.catalog, congrArg (fun r : Results => { r with solutions := u }) h.results⟩

theorem listAnswers_inStep (options : SolveOptions) (p : Preferences) (answers : List Answer) :
    Stage.InStep Alike (listAnswers options p answers) :=
  (onSolutions_inStep _).bind fun _ =>
    (record_inStep _).bind fun _ => (record_inStep _).bind fun _ => .pure _

theorem prepareSearch_inStep (e : SearchEquation) : Stage.InStep Alike (prepareSearch e) := by
  refine (record_inStep _).bind fun _ => Stage.InStep.bind ?_ fun _ => ?_
  · exact .update fun _ _ h => ⟨h.slots, h.catalog, h.results⟩
  · exact (record_inStep _).bind fun _ => .pure _

theorem solveEquation_inStep (options : SolveOptions) (p : Preferences) (mode : Mode)
    (hs : List Handle) : Stage.InStep Alike (solveEquation options p mode hs) := by
  refine (Stage.InStep.look fun _ _ h => h.catalog).bind fun k => ?_
  split
  · split
    · exact (record_inStep _).bind fun _ => listAnswers_inStep _ _ _
    · exact prepareSearch_inStep _
  · exact .halt _

theorem solveCatalog_inStep (options : SolveOptions) (p : Preferences) (mode : Mode)
    (hs : List Handle) : Stage.InStep Alike (solveCatalog options p mode hs) := by
  refine (Stage.InStep.look fun _ _ h => h.catalog).bind fun k => ?_
  split
  · exact listAnswers_inStep _ _ _
  · exact .pure _
  · exact (record_inStep _).bind fun _ => .pure _
  · exact solveEquation_inStep _ _ _ _

theorem solveForms_inStep (Γ : Context Handle) (options : SolveOptions) (mode : Mode)
    (hs : List Handle) : Stage.InStep Alike (solveForms Γ options mode hs) :=
  Stage.InStep.arena.bind fun _ =>
    (onCatalog_inStep _).bind fun _ => solveCatalog_inStep _ _ _ _

/-- Classification clears the catalog first, so it does not matter what is in it. -/
theorem solveForms_catalog (Γ : Context Handle) (options : SolveOptions) (mode : Mode)
    (hs : List Handle) (s : EquationStore) (k : Catalog) (A : Arena) :
    solveForms Γ options mode hs ({ s with catalog := k }, A) =
      solveForms Γ options mode hs (s, A) := rfl

theorem solveForms_congr (Γ : Context Handle) (options : SolveOptions) (mode : Mode)
    (hs : List Handle) {s t : EquationStore} (hslots : s.slots = t.slots)
    (hresults : s.results = t.results) (A : Arena) :
    let x := solveForms Γ options mode hs (s, A)
    let y := solveForms Γ options mode hs (t, A)
    x.1 = y.1 ∧ x.2.2 = y.2.2 ∧ Alike x.2.1 y.2.1 := by
  -- both runs may as well start from an empty catalog, and then the stores are alike
  have hrun := solveForms_inStep Γ options mode hs { s with catalog := {} }
    { t with catalog := {} } A ⟨hslots, rfl, hresults⟩
  rwa [solveForms_catalog Γ options mode hs s, solveForms_catalog Γ options mode hs t] at hrun

/-- A pass builds the standard forms of the equations before it looks at anything else. -/
theorem solvePass_eq (Γ : Context Handle) (options : SolveOptions) (mode : Mode)
    (s : EquationStore) (A : Arena) :
    solvePass Γ options mode (s, A) =
      (Stage.build (s.equations.mapM Equation.standardForm) >>= solveForms Γ options mode :
        Stage EquationStore Status)
      ({ s with results := { s.results with replaced := decide (mode = .replaceAll) } }, A) := rfl

section

variable (Γ : Context Handle) (options : SolveOptions) (mode : Mode) {s : EquationStore}
  {A B : Arena}

theorem solvePass_of_ok {hs : List Handle}
    (h : s.equations.mapM Equation.standardForm A = (.ok hs, B)) :
    solvePass Γ options mode (s, A) = solveForms Γ options mode hs
      ({ s with results := { s.results with replaced := decide (mode = .replaceAll) } }, B) := by
  rw [solvePass_eq, bind_run, Stage.build]
  simp only [h]

theorem solvePass_of_error {e : Exhausted}
    (h : s.equations.mapM Equation.standardForm A = (.error e, B)) :
    solvePass Γ options mode (s, A) = (.error (.error .outOfMemory),
      ({ s with results := { s.results with replaced := decide (mode = .replaceAll) } }, B)) := by
  rw [solvePass_eq, bind_run, Stage.build]
  simp only [h]

end

/-- A pass depends on nothing of the store but the equations and the results. -/
theorem solvePass_congr (Γ : Context Handle) (options : SolveOptions) (mode : Mode)
    {s t : EquationStore} (hslots : s.slots = t.slots) (hresults : s.results = t.results)
    (A : Arena) :
    let x := solvePass Γ options mode (s, A)
    let y := solvePass Γ options mode (t, A)
    x.1 = y.1 ∧ (x.1 = .error (.error .outOfMemory) ∨ x.2.2 = y.2.2 ∧ Alike x.2.1 y.2.1) := by
  intro x y
  have hequations : s.equations = t.equations := by rw [equations, hslots, equations]
  -- the standard forms are the same for both, and so is the arena behind them
  rcases ht : t.equations.mapM Equation.standardForm A with ⟨e | hs, B⟩
  · have hx := solvePass_of_error Γ options mode (hequations ▸ ht)
    have hy := solvePass_of_error Γ options mode ht
    rw [show x = _ from hx, show y = _ from hy]
    exact ⟨rfl, .inl rfl⟩
  · have hx := solvePass_of_ok Γ options mode (hequations ▸ ht)
    have hy := solvePass_of_ok Γ options mode ht
    rw [show x = _ from hx, show y = _ from hy]
    refine And.imp_right .inr (solveForms_congr Γ options mode hs ?_ ?_ B)
    · exact hslots
    · rw [hresults]

end EquationStore

end Resolvent

import Resolvent.Proofs.Rewriting.Simplifier
import Resolvent.Proofs.Solve.Growth
import Resolvent.Proofs.Solve.Isolation
import Resolvent.Rewriting.Saturation
import Resolvent.Solve.Store

/-!
# The resolution of a system in two passes

A solve goes through a small state machine over a store that every pass changes and an arena that is
rolled back before every pass.  What it comes to can be said without the machine.  `Outcome.ofPass`
is what a single pass comes to in a new store, run in the tidy arena; `Outcome.chosen` chooses
between the outcomes of the two kinds of passes.  A solve leaves the store and the arena as the chosen
outcome has them, up to the interval of a search (`EquationStore.exists_solve_eq_leave`), and makes at
most three passes (`Outcome.length_passes`).

A pass does not see what the passes before it have left in the store
(`EquationStore.solvePass_congr`), and the arena it has let grow is rolled back to the very arena
from which the solve has started (`Arena.GrowsTo.rollback`).

A solve may run out of nodes anywhere: while it builds the standard forms, expands definitions,
rewrites with identities or stores solutions, and in any of its passes.  Whatever the place, what it
leaves behind is what tidying up alone would have left (`EquationStore.solve_of_exhausted`): the
arena has the nodes, the index and the names from before the solve, the equations are untouched, and
neither solutions nor a search are on offer.
-/

namespace Resolvent

/-- What a pass comes to. -/
structure Outcome where
  /-- How the pass has ended. -/
  status : Status
  /-- The variables and forms of the system. -/
  catalog : Catalog
  /-- The classification of the system, its degree, the number of solutions, and these. -/
  results : Results
  /-- The arena behind the pass. -/
  arena : Arena

namespace Outcome

/-- What a single pass over equations comes to in a new store, or why it has no status. -/
def ofPass (Γ : Context Handle) (options : SolveOptions)
    (slots : Vector (Option Equation) maxVariables) (A : Arena) (mode : Mode) :
    Except SolveError Outcome :=
  match EquationStore.solvePass Γ options mode ({ slots, results := {} }, A) with
  | (.ok status, s, B) => .ok ⟨status, s.catalog, s.results, B⟩
  | (.error (.status status), s, B) => .ok ⟨status, s.catalog, s.results, B⟩
  | (.error (.error x), _) => .error x

/-- An outcome is what a pass leaves behind. -/
theorem exists_run_of_ofPass {Γ : Context Handle} {options : SolveOptions}
    {slots : Vector (Option Equation) maxVariables} {A : Arena} {mode : Mode} {P : Outcome}
    (h : ofPass Γ options slots A mode = .ok P) :
    ∃ r s, EquationStore.solvePass Γ options mode ({ slots, results := {} }, A) =
      (r, s, P.arena) ∧ P.catalog = s.catalog := by
  unfold ofPass at h
  split at h
  · next hrun =>
    obtain rfl := Except.ok.inj h
    exact ⟨_, _, hrun, rfl⟩
  · next hrun =>
    obtain rfl := Except.ok.inj h
    exact ⟨_, _, hrun, rfl⟩
  · cases h

/-- The outcome of a first pass is not to be improved: no variable with a stored value was met, or
there are solutions, and finitely many. -/
def Final (P : Outcome) : Prop :=
  P.catalog.predefined = [] ∨
    P.status = .noError ∧ P.results.count ≠ .finite 0 ∧ P.results.count ≠ .infinite

instance (P : Outcome) : Decidable P.Final := inferInstanceAs (Decidable (_ ∨ _))

/-- The outcome of a first pass is better than that of the second. -/
def Beats (P Q : Outcome) : Prop :=
  P.status = .noError ∧ Q.status ≠ .noError ∧ Q.status ≠ .requireApproximateSolution

instance (P Q : Outcome) : Decidable (P.Beats Q) := inferInstanceAs (Decidable (_ ∧ _))

/-- The choice between the outcomes of the two kinds of passes, where a pass of the first kind that is
chosen after all is made again.  Nothing is chosen where a pass that is needed has no status. -/
def chosen (first second again : Except SolveError Outcome) : Except SolveError Outcome := do
  let P ← first
  if P.Final then return P
  let Q ← second
  if P.Beats Q then again else return Q

/-- The passes that are made. -/
def passes (first second : Except SolveError Outcome) : List Mode :=
  match first with
  | .error _ => [.replaceAll]
  | .ok P =>
    if P.Final then [.replaceAll]
    else
      match second with
      | .error _ => [.replaceAll, .functionsOnly]
      | .ok Q =>
        if P.Beats Q then [.replaceAll, .functionsOnly, .replaceAll]
        else [.replaceAll, .functionsOnly]

/-- What a solve comes to, pass after pass. -/
def ofSolve (Γ : Context Handle) (options : SolveOptions)
    (slots : Vector (Option Equation) maxVariables) (A : Arena) : Except SolveError Outcome :=
  chosen (ofPass Γ options slots A .replaceAll)
    (ofPass Γ (options.afterPasses 1) slots A .functionsOnly)
    (ofPass Γ (options.afterPasses 2) slots A .replaceAll)

section Chosen

variable {P Q : Outcome} {second again : Except SolveError Outcome} {x : SolveError}

theorem chosen_of_final (h : P.Final) : chosen (.ok P) second again = .ok P := by
  change (if P.Final then _ else _) = _
  rw [if_pos h]
  rfl

theorem chosen_of_not_final (h : ¬ P.Final) : chosen (.ok P) second again =
    second.bind fun Q => if P.Beats Q then again else .ok Q := by
  change (if P.Final then _ else _) = _
  rw [if_neg h]
  rfl

/-- What is chosen is the outcome of one of the passes. -/
theorem eq_of_chosen {first : Except SolveError Outcome} {R : Outcome}
    (h : chosen first second again = .ok R) : first = .ok R ∨ second = .ok R ∨ again = .ok R := by
  cases first with
  | error x => cases h
  | ok P =>
    by_cases hfinal : P.Final
    · rw [chosen_of_final hfinal] at h
      exact .inl h
    · rw [chosen_of_not_final hfinal] at h
      cases second with
      | error x => cases h
      | ok Q =>
        change (if P.Beats Q then again else .ok Q) = _ at h
        split at h
        · exact .inr (.inr h)
        · exact .inr (.inl h)

end Chosen

/-- What is left behind in the end: the store has the equations as before and all else from the
outcome, up to the interval; without an outcome it has no results, and the arena is as before. -/
def leave (slots : Vector (Option Equation) maxVariables) (i : Interval) (A : Arena) :
    Except SolveError Outcome → Except SolveError Status × EquationStore × Arena
  | .ok P =>
    (.ok P.status,
      { slots, catalog := P.catalog, results := { P.results with status := P.status }
        interval := i, footprint := some ⟨A.checkpoint, P.arena.size⟩ },
      P.arena)
  | .error x =>
    (.error x, { slots, catalog := {}, results := {}, interval := i, footprint := none }, A)

/-- What is left behind by a single pass, before the solve is concluded. -/
def behind (slots : Vector (Option Equation) maxVariables) (i : Interval)
    (footprint : Option Footprint) (A : Arena) :
    Except SolveError Outcome → Except SolveError Status × EquationStore × Arena
  | .ok P =>
    (.ok P.status,
      { slots, catalog := P.catalog, results := P.results, interval := i, footprint }, P.arena)
  | .error x =>
    (.error x, { slots, catalog := {}, results := {}, interval := i, footprint }, A)

theorem conclude_behind (slots : Vector (Option Equation) maxVariables) (i : Interval)
    (A : Arena) (P : Except SolveError Outcome) :
    EquationStore.conclude A.checkpoint (behind slots i none A P) = leave slots i A P := by
  cases P <;> rfl

theorem length_passes (first second : Except SolveError Outcome) :
    (passes first second).length ≤ 3 := by
  unfold passes
  split
  · decide
  · split
    · decide
    · split
      · decide
      · split <;> decide

end Outcome

namespace EquationStore

variable (Γ : Context Handle) (options : SolveOptions)

/-- The passes of a solve: each is made with the mode that the resolution asks for, and is followed
by those that the next resolution asks for, if there is one. -/
inductive Passes (start : Checkpoint) : Resolution → EquationStore → Arena → List Mode →
    Except SolveError Status × EquationStore × Arena → Prop
  /-- A pass without a status is the last. -/
  | fails {r : Resolution} {s s' : EquationStore} {A A' : Arena} {x : SolveError}
      (h : s.attempt Γ options start r A = (.error x, s', A')) :
      Passes start r s A [r.mode] (.error x, s', A')
  /-- A pass that no other follows. -/
  | last {r : Resolution} {s s' : EquationStore} {A A' : Arena} {status : Status}
      (h : s.attempt Γ options start r A = (.ok status, s', A'))
      (hnext : s'.next? status r = none) : Passes start r s A [r.mode] (.ok status, s', A')
  /-- A pass and those that follow it. -/
  | more {r next : Resolution} {s s' : EquationStore} {A A' : Arena} {status : Status}
      {modes : List Mode} {y : Except SolveError Status × EquationStore × Arena}
      (h : s.attempt Γ options start r A = (.ok status, s', A'))
      (hnext : s'.next? status r = some next) (hrest : Passes start next s' A' modes y) :
      Passes start r s A (r.mode :: modes) y

variable {Γ options}

/-- The loop ends as the passes do that it makes. -/
theorem Passes.resolve_eq {start : Checkpoint} {r : Resolution} {s : EquationStore} {A : Arena}
    {modes : List Mode} {y : Except SolveError Status × EquationStore × Arena}
    (h : Passes Γ options start r s A modes y) : resolve Γ options start r s A = y := by
  induction h with
  | fails h =>
    rw [resolve]
    simp only [h]
  | last h hnext =>
    rw [resolve]
    simp only [h]
    split
    · simp_all
    · rfl
  | more h hnext hrest ih =>
    rw [resolve]
    simp only [h]
    split
    · simp_all
    · simp_all

/-- A pass that starts from any arena that the first one has grown to, and from any store with the
same equations, comes to the outcome of a single pass. -/
theorem attempt_eq (Γ : Context Handle) (options : SolveOptions) (r : Resolution)
    (s : EquationStore) {A B : Arena} (h : A.GrowsTo B) :
    ∃ i, (i = s.interval ∨ i = {}) ∧
      s.attempt Γ options A.checkpoint r B = Outcome.behind s.slots i s.footprint A
        (Outcome.ofPass Γ (options.afterPasses r.before) s.slots A r.mode) := by
  unfold attempt Outcome.ofPass
  rw [h.rollback]
  generalize options.afterPasses r.before = options
  generalize r.mode = mode
  -- behind the rollback the pass starts as in a new store, up to what it does not see
  have hcongr := solvePass_congr Γ options mode (s := s.resetResults)
    (t := { slots := s.slots, results := {} }) rfl rfl A
  have hfollows := solvePass_follows Γ options mode (s.resetResults, A)
  rcases hx : solvePass Γ options mode (s.resetResults, A) with ⟨r, s', B'⟩
  rcases hy : solvePass Γ options mode ({ slots := s.slots, results := {} }, A) with ⟨r', t, C⟩
  rw [hx, hy] at hcongr
  rw [hx] at hfollows
  obtain ⟨hanswer, hrest⟩ := hcongr
  obtain rfl : r = r' := hanswer
  obtain ⟨hgrows, hslots, hfootprint, hinterval⟩ := hfollows
  -- what the pass leaves is known up to the interval and the footprint
  have hstore (halike : Alike s' t) :
      s' = ⟨s.slots, t.catalog, t.results, s'.interval, s.footprint⟩ := by
    obtain ⟨_, hcatalog, hresults⟩ := halike
    cases s'
    simp_all [resetResults]
  refine ⟨s'.interval, hinterval, ?_⟩
  rcases r with (status | x) | status
  · obtain ⟨hends, halike⟩ := hrest.resolve_left (by simp)
    obtain rfl : B' = C := hends
    exact congrArg (fun s => ((.ok status : Except SolveError Status), s, B')) (hstore halike)
  · -- a pass without a status leaves nothing behind but the interval
    have hend : B'.rollback A.checkpoint = A := hgrows.rollback
    have hslots : s'.slots = s.slots := hslots
    have hfootprint : s'.footprint = s.footprint := hfootprint
    dsimp only [Outcome.behind, resetResults]
    rw [hend, hslots, hfootprint]
  · obtain ⟨hends, halike⟩ := hrest.resolve_left (by simp)
    obtain rfl : B' = C := hends
    exact congrArg (fun s => ((.ok status : Except SolveError Status), s, B')) (hstore halike)

theorem grows_of_ofPass {slots : Vector (Option Equation) maxVariables} {A : Arena} {mode : Mode}
    {P : Outcome} (h : Outcome.ofPass Γ options slots A mode = .ok P) : A.GrowsTo P.arena := by
  obtain ⟨r, s, hrun, -⟩ := Outcome.exists_run_of_ofPass h
  have hgrows := (solvePass_follows Γ options mode ({ slots, results := {} }, A)).grows
  rwa [hrun] at hgrows

theorem needsFreeVariables_iff (P : Outcome) (slots : Vector (Option Equation) maxVariables)
    (i : Interval) (footprint : Option Footprint) :
    needsFreeVariables ⟨slots, P.catalog, P.results, i, footprint⟩ P.status = true ↔
      ¬ P.Final := by
  simp only [needsFreeVariables, Outcome.Final, Bool.and_eq_true, Bool.or_eq_true, bne_iff_ne,
    beq_iff_eq, Bool.not_eq_true', List.isEmpty_eq_false_iff, not_or, not_and, ne_eq]
  grind

theorem next?_boundValues (P : Outcome) (slots : Vector (Option Equation) maxVariables)
    (i : Interval) (footprint : Option Footprint) :
    next? ⟨slots, P.catalog, P.results, i, footprint⟩ P.status .boundValues =
      if P.Final then none else some (.freeVariables P.status) := by
  have hiff := needsFreeVariables_iff P slots i footprint
  by_cases h : P.Final
  · rw [next?, if_neg fun hneeds => hiff.1 hneeds h, if_pos h]
  · rw [next?, if_pos (hiff.2 h), if_neg h]

theorem next?_freeVariables (P Q : Outcome) (s : EquationStore) :
    s.next? Q.status (.freeVariables P.status) =
      if P.Beats Q then some .revertToBoundValues else none := by
  have hiff : (P.status == .noError && Q.status != .noError &&
      Q.status != .requireApproximateSolution) = true ↔ P.Beats Q := by
    simp [Outcome.Beats, and_assoc]
  by_cases h : P.Beats Q
  · rw [next?, if_pos (hiff.2 h), if_pos h]
  · rw [next?, if_neg fun hholds => h (hiff.1 hholds), if_neg h]

/-- The passes that are made, and what they leave behind. -/
theorem passes_chosen (Γ : Context Handle) (options : SolveOptions) (s : EquationStore) (A : Arena) :
    ∃ i, (i = s.interval ∨ i = {}) ∧
      Passes Γ options A.checkpoint .boundValues s A
        (Outcome.passes (Outcome.ofPass Γ options s.slots A .replaceAll)
          (Outcome.ofPass Γ (options.afterPasses 1) s.slots A .functionsOnly))
        (Outcome.behind s.slots i s.footprint A (Outcome.ofSolve Γ options s.slots A)) := by
  unfold Outcome.ofSolve
  obtain ⟨i, hi, hfirst⟩ := attempt_eq Γ options .boundValues s (.refl A)
  simp only [Resolution.before, Resolution.mode, SolveOptions.afterPasses_zero] at hfirst
  rcases hP : Outcome.ofPass Γ options s.slots A .replaceAll with x | P
  · rw [hP] at hfirst
    exact ⟨i, hi, .fails hfirst⟩
  rw [hP] at hfirst
  have hnext := next?_boundValues P s.slots i s.footprint
  unfold Outcome.passes
  dsimp only
  by_cases hfinal : P.Final
  · rw [if_pos hfinal] at hnext
    rw [if_pos hfinal, Outcome.chosen_of_final hfinal]
    exact ⟨i, hi, .last hfirst hnext⟩
  rw [if_neg hfinal] at hnext
  rw [if_neg hfinal, Outcome.chosen_of_not_final hfinal]
  -- the second pass starts from the store that the first has left
  obtain ⟨j, hj, hsecond⟩ := attempt_eq Γ options (.freeVariables P.status)
    ⟨s.slots, P.catalog, P.results, i, s.footprint⟩ (grows_of_ofPass hP)
  have hj : j = s.interval ∨ j = {} := hj.elim (fun heq => heq ▸ hi) .inr
  dsimp only [Resolution.before, Resolution.mode] at hsecond
  rcases hQ : Outcome.ofPass Γ (options.afterPasses 1) s.slots A .functionsOnly with x | Q
  · rw [hQ] at hsecond
    exact ⟨j, hj, .more hfirst hnext (.fails hsecond)⟩
  rw [hQ] at hsecond
  have hnext' := next?_freeVariables P Q ⟨s.slots, Q.catalog, Q.results, j, s.footprint⟩
  dsimp only [Except.bind]
  by_cases hbeats : P.Beats Q
  · rw [if_pos hbeats] at hnext'
    rw [if_pos hbeats, if_pos hbeats]
    -- so does the third
    obtain ⟨k, hk, hthird⟩ := attempt_eq Γ options .revertToBoundValues
      ⟨s.slots, Q.catalog, Q.results, j, s.footprint⟩ (grows_of_ofPass hQ)
    refine ⟨k, hk.elim (fun heq => heq ▸ hj) .inr, .more hfirst hnext (.more hsecond hnext' ?_)⟩
    dsimp only [Resolution.before, Resolution.mode] at hthird
    rcases hR : Outcome.ofPass Γ (options.afterPasses 2) s.slots A .replaceAll with x | R
    · rw [hR] at hthird
      exact .fails hthird
    · rw [hR] at hthird
      exact .last hthird rfl
  · rw [if_neg hbeats] at hnext'
    rw [if_neg hbeats, if_neg hbeats]
    exact ⟨j, hj, .more hfirst hnext (.last hsecond hnext')⟩

/-- What a solve comes to is the outcome of one of the passes. -/
theorem exists_mode_of_ofSolve {slots : Vector (Option Equation) maxVariables} {A : Arena}
    {R : Outcome} (h : Outcome.ofSolve Γ options slots A = .ok R) :
    ∃ n mode, Outcome.ofPass Γ (options.afterPasses n) slots A mode = .ok R := by
  rcases Outcome.eq_of_chosen h with h | h | h
  · exact ⟨0, _, h⟩
  · exact ⟨1, _, h⟩
  · exact ⟨2, _, h⟩

/-- A solve leaves what the chosen outcome leaves, or nothing. -/
theorem exists_solve_eq_leave (s : EquationStore) (Γ : Context Handle) (options : SolveOptions)
    (A : Arena) :
    ∃ i, (i = s.interval ∨ i = {}) ∧ s.solve Γ options A = Outcome.leave s.slots i (s.tidy Γ A).2
      (Outcome.ofSolve Γ options s.slots (s.tidy Γ A).2) := by
  obtain ⟨i, hi, hpasses⟩ := passes_chosen Γ options (s.tidy Γ A).1 (s.tidy Γ A).2
  refine ⟨i, hi, ?_⟩
  rw [solve]
  exact (congrArg (conclude (s.tidy Γ A).2.checkpoint) hpasses.resolve_eq).trans
    (Outcome.conclude_behind _ _ _ _)

/-! ### Solves that run out of nodes -/

/-- Without an equation to search with, no interval can be searched. -/
theorem search_eq_error {s : EquationStore} (h : s.results.search = none) (Γ : Context Handle)
    (options : SolveOptions) (A : Arena) : s.search Γ options A = .error .notMonovariable := by
  simp [search, searchEquation?, h]

/-- A bound is set for a search only. -/
theorem setBound_eq_error {s : EquationStore} (h : s.results.kind ≠ .search) (index : Nat)
    (x : Float) : s.setBound index x = .error .notMonovariable := by
  simp [setBound, h]

/-- The store behind a solve that has run out of nodes: that of a tidied one, without a catalog. -/
theorem exists_solve_eq_error {s : EquationStore} {Γ : Context Handle} {options : SolveOptions}
    {A : Arena} {x : SolveError} (h : (s.solve Γ options A).1 = .error x) :
    ∃ i, (s.solve Γ options A).2 =
      ({ slots := s.slots, catalog := {}, results := {}, interval := i, footprint := none },
        (s.tidy Γ A).2) := by
  obtain ⟨i, -, hsolve⟩ := s.exists_solve_eq_leave Γ options A
  rw [hsolve] at h ⊢
  generalize Outcome.ofSolve Γ options s.slots (s.tidy Γ A).2 = R at h ⊢
  cases R with
  | error x => exact ⟨i, rfl⟩
  | ok P => cases h

/-- A solve that runs out of nodes leaves the arena as tidying up alone would, and the equations as
they were; it lists no solution, counts none and reports no error of its own, and no interval can be
set or searched, in whatever arena and with whatever definitions. -/
theorem solve_of_exhausted {s : EquationStore} {Γ : Context Handle} {options : SolveOptions}
    {A : Arena} (h : (s.solve Γ options A).1 = .error .outOfMemory) :
    let s' := (s.solve Γ options A).2.1
    (s.solve Γ options A).2.2 = (s.tidy Γ A).2 ∧ s'.slots = s.slots ∧
      (∀ n, s'.solution? n = none) ∧ s'.count = .finite 0 ∧ s'.results.status = .noError ∧
      (∀ Γ' options' B, s'.search Γ' options' B = .error .notMonovariable) ∧
      ∀ index y, s'.setBound index y = .error .notMonovariable := by
  intro s'
  obtain ⟨i, hleft⟩ := exists_solve_eq_error h
  have hs' : s' =
      { slots := s.slots, catalog := {}, results := {}, interval := i, footprint := none } :=
    congrArg Prod.fst hleft
  refine ⟨congrArg (fun y => y.2) hleft, ?_⟩
  rw [hs']
  refine ⟨rfl, fun n => rfl, rfl, rfl, fun Γ' options' B => ?_, fun index y => ?_⟩
  · exact search_eq_error rfl Γ' options' B
  · exact setBound_eq_error (by simp) index y

/-! ### A solve without room for the first standard form -/

/-- Without room for the standard forms a solve ends at once. -/
theorem solve_eq_error_of_standardForm {s : EquationStore} {Γ : Context Handle}
    {options : SolveOptions} {A : Arena} {e : Exhausted}
    (h : (s.equations.mapM Equation.standardForm (s.tidy Γ A).2).1 = .error e) :
    (s.solve Γ options A).1 = .error .outOfMemory := by
  obtain ⟨i, -, hsolve⟩ := s.exists_solve_eq_leave Γ options A
  have herror := solvePass_of_error Γ options .replaceAll (s := { slots := s.slots, results := {} })
    (e := e) (Prod.ext h rfl)
  have hfirst : Outcome.ofPass Γ options s.slots (s.tidy Γ A).2 .replaceAll =
      .error .outOfMemory := by
    rw [Outcome.ofPass, herror]
  rw [hsolve, Outcome.ofSolve, hfirst]
  rfl

/-- The nodes of `x = 0`, with room for one more. -/
def scarceArena : Arena :=
  (Build.intern (.integer 0)
    (Build.intern (.symbol 0) { symbols := .ofNames ["x"] (by decide), limit := 3 }).2).2

/-- The equation `x = 0`. -/
def symbolIsZero : EquationStore where
  slots := (Vector.replicate maxVariables none).set 0 (some ⟨⟨0⟩, ⟨1⟩⟩)

/-- The opposite of the right-hand side finds room, and the difference of the sides does not. -/
theorem solve_scarceArena :
    (symbolIsZero.solve {} { simplifier := .saturation } scarceArena).1 = .error .outOfMemory := by
  have hequations : symbolIsZero.equations = [⟨⟨0⟩, ⟨1⟩⟩] := by decide
  refine solve_eq_error_of_standardForm (e := ⟨3⟩) ?_
  rw [hequations]
  have htidy : (symbolIsZero.tidy {} scarceArena).2 = scarceArena := rfl
  rw [htidy]
  simp [Equation.standardForm, Build.difference, Build.opposite, Build.sum, bind_run,
    Build.intern_run, scarceArena]

/-- The opposite of zero is not left behind. -/
theorem solve_of_exhausted_scarceArena :
    (symbolIsZero.solve {} { simplifier := .saturation } scarceArena).1 = .error .outOfMemory ∧
      (symbolIsZero.solve {} { simplifier := .saturation } scarceArena).2.2 = scarceArena ∧
      (symbolIsZero.solve {} { simplifier := .saturation } scarceArena).2.1.slots =
        symbolIsZero.slots :=
  have h := solve_of_exhausted solve_scarceArena
  ⟨solve_scarceArena, h.1, h.2.1⟩

end EquationStore

end Resolvent

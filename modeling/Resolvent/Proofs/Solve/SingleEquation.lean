import Resolvent.Proofs.Form.Inlining
import Resolvent.Proofs.Solve.Resolution

/-!
# A pass over a single equation

A pass over a single equation lists as predefined the variables of its canonical form with variables
kept symbolic, whatever becomes of the equation itself (`EquationStore.predefined_of_ofPass`).  If
there is no such form, also for want of nodes, none are listed.  Where the equation comes to say that
zero is zero, the pass finds infinitely many solutions (`EquationStore.exists_ofPass_of_zero`).
-/

namespace Resolvent

namespace Catalog

open Stage

theorem noteForm_predefined (c : Canonical) :
    Along Eq (fun x : Catalog × Arena => x.1.predefined) (noteForm c) := by
  refine Along.bind (fun _ => rfl) fun known => Along.bind (fun _ => rfl) fun _ => ?_
  split
  · exact fun _ => rfl
  · exact fun _ => rfl

theorem noteResult_predefined (r : Except CanonicalError Canonical) :
    Along Eq (fun x : Catalog × Arena => x.1.predefined) (noteResult r) := by
  unfold noteResult
  split
  · exact noteForm_predefined _
  all_goals exact fun _ => rfl

variable {c : Canonizer} {h : Handle} {k : Catalog} {A B : Arena}
  {r : Except CanonicalError Canonical}

/-- As long as there may be further predefined variables, the symbolic form is looked at first. -/
theorem noteEquation_run (hknown : k.predefined.length < maxVariables)
    (hsymbolic : Build.canonical { c with mode := .functionsOnly } h A = (r, B)) :
    noteEquation c h (k, A) =
      (if c.mode = .functionsOnly ∨ overflows r then noteResult r
        else settle (Build.canonical c.later h) >>= noteResult)
          (k.notePredefined c.context B r, B) := by
  unfold noteEquation
  rw [bind_run]
  dsimp only [look]
  rw [if_pos hknown, bind_run]
  dsimp only [settle]
  rw [hsymbolic]
  rfl

/-- Where variables are replaced, the form without them is noted, whatever the symbolic form is. -/
theorem noteEquation_of_replaced {r' : Except CanonicalError Canonical} {C : Arena}
    (hmode : c.mode = .replaceAll) (hknown : k.predefined.length < maxVariables)
    (hsymbolic : Build.canonical { c with mode := .functionsOnly } h A = (r, B))
    (hends : ¬ overflows r = true) (hcanonical : Build.canonical c.later h B = (r', C)) :
    noteEquation c h (k, A) = noteResult r' (k.notePredefined c.context B r, C) := by
  have hmode : ¬ c.mode = .functionsOnly := hmode ▸ nofun
  rw [noteEquation_run hknown hsymbolic, if_neg (not_or_intro hmode hends), bind_run]
  dsimp only [settle]
  rw [hcanonical]

/-- The catalog is cleared first. -/
theorem classify_singleton (c : Canonizer) (h : Handle) (k : Catalog) (A : Arena) :
    classify c [h] (k, A) = (noteEquation c h >>= fun _ => noteAll c.later.later []) ({}, A) := rfl

/-- The predefined variables of an equation are those of its symbolic form, whatever becomes of the
equation. -/
theorem classify_predefined
    (hsymbolic : Build.canonical { c with mode := .functionsOnly } h A = (r, B)) :
    (classify c [h] (k, A)).2.1.predefined =
      (({} : Catalog).notePredefined c.context B r).predefined := by
  have hrest : Along Eq (fun x : Catalog × Arena => x.1.predefined)
      ((if c.mode = .functionsOnly ∨ overflows r then noteResult r
        else settle (Build.canonical c.later h) >>= noteResult) >>=
          fun _ => noteAll c.later.later []) := by
    refine Along.bind ?_ fun _ _ => rfl
    split
    · exact noteResult_predefined r
    · exact Along.bind (fun _ => rfl) noteResult_predefined
  have hrun : classify c [h] (k, A) =
      ((if c.mode = .functionsOnly ∨ overflows r then noteResult r
        else settle (Build.canonical c.later h) >>= noteResult) >>=
          fun _ => noteAll c.later.later []) (({} : Catalog).notePredefined c.context B r, B) := by
    rw [classify_singleton, bind_run, bind_run, noteEquation_run (by decide) hsymbolic]
  rw [hrun]
  exact (hrest _).symm

end Catalog

namespace EquationStore

open Stage

variable {Γ : Context Handle} {options : SolveOptions} {mode : Mode}
  {slots : Vector (Option Equation) maxVariables} {e : Equation} {h : Handle} {A B C : Arena}
  {P : Outcome} {r : Except CanonicalError Canonical}

theorem listAnswers_catalog (p : Preferences) (answers : List Answer) :
    Along Eq (fun x : EquationStore × Arena => x.1.catalog) (listAnswers options p answers) :=
  Along.bind (fun _ => rfl) fun _ => Along.bind (fun _ => rfl) fun _ =>
    Along.bind (fun _ => rfl) fun _ => Along.pure _

theorem solveEquation_catalog (p : Preferences) (hs : List Handle) :
    Along Eq (fun x : EquationStore × Arena => x.1.catalog)
      (solveEquation options p mode hs) := by
  refine Along.bind (fun _ => rfl) fun k => ?_
  split
  · split
    · exact Along.bind (fun _ => rfl) fun _ => listAnswers_catalog _ _
    · exact fun _ => rfl
  · exact fun _ => rfl

/-- Solving a classified system leaves the catalog as it is. -/
theorem solveCatalog_catalog (p : Preferences) (hs : List Handle) :
    Along Eq (fun x : EquationStore × Arena => x.1.catalog)
      (solveCatalog options p mode hs) := by
  refine Along.bind (fun _ => rfl) fun k => ?_
  split
  · exact listAnswers_catalog _ _
  · exact Along.pure _
  · exact Along.bind (fun _ => rfl) fun _ => Along.pure _
  · exact solveEquation_catalog _ _

theorem mapM_standardForm_singleton (hstandard : e.standardForm A = (.ok h, B)) :
    [e].mapM Equation.standardForm A = (.ok [h], B) := by
  rw [List.mapM_cons, List.mapM_nil, bind_run, hstandard]
  rfl

/-- A single equation is classified with the preferences that are right for it. -/
theorem solveForms_singleton {s : EquationStore} {p : Preferences}
    (hp : options.preferences.forEquations (Γ.definitions B) mode [B.expression h] = p) :
    solveForms Γ options mode [h] (s, B) =
      (onCatalog (Catalog.classify (options.canonizer Γ mode p) [h]) >>=
        fun _ => solveCatalog options p mode [h]) (s, B) := by
  unfold solveForms
  rw [bind_run]
  dsimp only [Stage.arena]
  rw [List.map_singleton, hp]

theorem solveForms_predefined {s : EquationStore} {p : Preferences}
    (hp : options.preferences.forEquations (Γ.definitions B) mode [B.expression h] = p)
    (hsymbolic : Build.canonical (options.canonizer Γ .functionsOnly p) h B = (r, C)) :
    (solveForms Γ options mode [h] (s, B)).2.1.catalog.predefined =
      (({} : Catalog).notePredefined Γ C r).predefined := by
  have hclassify := Catalog.classify_predefined (c := options.canonizer Γ mode p)
    (k := s.catalog) hsymbolic
  rw [solveForms_singleton hp, bind_run]
  dsimp only [onCatalog, Stage.onPart]
  rcases hrun : Catalog.classify (options.canonizer Γ mode p) [h] (s.catalog, B) with
    ⟨x | _, k, A'⟩
  · rw [hrun] at hclassify
    exact hclassify
  · rw [hrun] at hclassify
    have hcatalog : Along Eq _ (solveCatalog options p mode [h]) := solveCatalog_catalog p [h]
    exact (congrArg Catalog.predefined (hcatalog ({ s with catalog := k }, A'))).symm.trans hclassify

/-- The predefined variables of a single equation are those of its symbolic form. -/
theorem predefined_of_ofPass {p : Preferences} (hequations : equations { slots } = [e])
    (hstandard : e.standardForm A = (.ok h, B))
    (hp : options.preferences.forEquations (Γ.definitions B) mode [B.expression h] = p)
    (hsymbolic : Build.canonical (options.canonizer Γ .functionsOnly p) h B = (r, C))
    (hP : Outcome.ofPass Γ options slots A mode = .ok P) :
    P.catalog.predefined = (({} : Catalog).notePredefined Γ C r).predefined := by
  have hpass := solvePass_of_ok Γ options mode (s := { slots, results := {} })
    (hequations ▸ mapM_standardForm_singleton hstandard)
  have hforms := solveForms_predefined
    (s := { slots, results := { replaced := decide (mode = .replaceAll) } }) hp hsymbolic
  obtain ⟨status, s, hrun, hcatalog⟩ := Outcome.exists_run_of_ofPass hP
  rw [← hpass, hrun] at hforms
  rw [hcatalog]
  exact hforms

/-- Once the variables of a single equation are classified, a pass solves what they say. -/
theorem solvePass_of_classify {p : Preferences} {k : Catalog}
    (hequations : equations { slots } = [e]) (hstandard : e.standardForm A = (.ok h, B))
    (hp : options.preferences.forEquations (Γ.definitions B) mode [B.expression h] = p)
    (hclassify : Catalog.classify (options.canonizer Γ mode p) [h] ({}, B) = (.ok (), (k, C))) :
    solvePass Γ options mode ({ slots, results := {} }, A) =
      solveCatalog options p mode [h]
        ({ slots, catalog := k, results := { replaced := decide (mode = .replaceAll) } }, C) := by
  rw [solvePass_of_ok Γ options mode (s := { slots, results := {} })
    (hequations ▸ mapM_standardForm_singleton hstandard), solveForms_singleton hp, bind_run]
  dsimp only [onCatalog, Stage.onPart]
  rw [hclassify]

/-- A first pass over a single equation with the form zero finds infinitely many solutions. -/
theorem exists_ofPass_of_zero {p : Preferences} (hequations : equations { slots } = [e])
    (hstandard : e.standardForm A = (.ok h, A))
    (hp : options.preferences.forEquations (Γ.definitions A) .replaceAll [A.expression h] = p)
    (hsymbolic : Build.canonical (options.canonizer Γ .functionsOnly p) h A = (r, A))
    (hpredefined : ({} : Catalog).notePredefined Γ A r = {})
    (hends : ¬ Catalog.overflows r = true)
    (hcanonical : Build.canonical (options.canonizer Γ .replaceAll p).later h A =
      (.ok ⟨Form.zero, []⟩, A)) :
    ∃ P, Outcome.ofPass Γ options slots A .replaceAll = .ok P ∧ P.status = .noError ∧
      P.catalog.predefined = [] := by
  have hclassify : Catalog.classify (options.canonizer Γ .replaceAll p) [h] ({}, A) =
      (.ok (), ({ forms := [Form.zero] }, A)) := by
    rw [Catalog.classify_singleton, bind_run, Catalog.noteEquation_of_replaced
      (c := options.canonizer Γ .replaceAll p) rfl (by decide) hsymbolic hends hcanonical,
      show ({} : Catalog).notePredefined (options.canonizer Γ .replaceAll p).context A r = {} from
        hpredefined]
    rfl
  have hlinear : LinearSystem.solve [Form.zero] [] = .underdetermined := by decide +kernel
  refine ⟨⟨.noError, { forms := [Form.zero] }, { replaced := true, count := .infinite }, A⟩, ?_,
    rfl, rfl⟩
  unfold Outcome.ofPass
  rw [solvePass_of_classify hequations hstandard hp hclassify, solveCatalog, bind_run]
  dsimp only [Stage.look]
  rw [hlinear]
  rfl

/-- So the solve ends with them. -/
theorem solve_of_zero {s : EquationStore} {p : Preferences} (htidy : (s.tidy Γ A).2 = A)
    (hequations : s.equations = [e]) (hstandard : e.standardForm A = (.ok h, A))
    (hp : options.preferences.forEquations (Γ.definitions A) .replaceAll [A.expression h] = p)
    (hsymbolic : Build.canonical (options.canonizer Γ .functionsOnly p) h A = (r, A))
    (hpredefined : ({} : Catalog).notePredefined Γ A r = {})
    (hends : ¬ Catalog.overflows r = true)
    (hcanonical : Build.canonical (options.canonizer Γ .replaceAll p).later h A =
      (.ok ⟨Form.zero, []⟩, A)) :
    (s.solve Γ options A).1 = .ok .noError ∧
      (s.solve Γ options A).2.1.catalog.predefined = [] := by
  obtain ⟨i, -, hsolve⟩ := s.exists_solve_eq_leave Γ options A
  rw [htidy] at hsolve
  obtain ⟨P, hP, hstatus, hnone⟩ :
      ∃ P, Outcome.ofPass Γ options s.slots A .replaceAll = .ok P ∧ P.status = .noError ∧
        P.catalog.predefined = [] :=
    exists_ofPass_of_zero hequations hstandard hp hsymbolic hpredefined hends hcanonical
  rw [hsolve, Outcome.ofSolve, hP, Outcome.chosen_of_final (.inl hnone)]
  exact ⟨congrArg Except.ok hstatus, hnone⟩

end EquationStore

/-! ### A fifth power and a stored variable -/

/-- The nodes of `x⁵ - a` and of `x⁵ - 1`. -/
def fifthPowerArena : Arena := Arena.ofNodes ["x", "a"]
  [.symbol 0, .integer 5, .power ⟨0⟩ ⟨1⟩, .symbol 1, .opposite ⟨3⟩, .sum [⟨2⟩, ⟨4⟩], .integer 1,
    .opposite ⟨6⟩, .sum [⟨2⟩, ⟨7⟩]]

/-- The definition `a = 1`. -/
def fifthPowerContext : Context Handle := ({} : Context Handle).define "a" (.variable ⟨6⟩)

/-- The canonical form of `x⁵ - a`, which is that of `x⁵ - 1` where `a` is replaced. -/
def fifthPowerCanonical : Mode → Canonical
  | .replaceAll => ⟨.add (.ofFactors 1 [(.symbol 0, 5)]) (.ofRat (-1)), [0]⟩
  | .functionsOnly =>
    ⟨.add (.ofFactors 1 [(.symbol 0, 5)]) (.ofFactors (-1) [(.symbol 1, 1)]), [0, 1]⟩

namespace Build

theorem wellFormed_fifthPowerArena : fifthPowerArena.WellFormed :=
  .ofNodes (by decide) (by decide) (by decide)

section Runs

open Expression

attribute [local simp] Build.expand expand_eq expandAt_succ expandWith pure_run throw_run
  expandAllWith expandSymbol ExpandM.build bind_run Build.integer sum_pair meet_run
  List.lookup_nil Build.power Build.opposite

theorem expand_fifthPowerArena (mode : Mode) :
    Build.expand (fifthPowerContext.definitions fifthPowerArena) mode
      (fifthPowerArena.expression ⟨5⟩) fifthPowerArena =
      (.ok (if mode = .replaceAll then (⟨8⟩, { met := [0] }) else (⟨5⟩, { met := [0, 1] })),
        fifthPowerArena) := by
  have hintern {n : Node} {h : Handle} (hn : fifthPowerArena.node? h = some n) :
      intern n fifthPowerArena = (.ok h, fifthPowerArena) :=
    intern_of_node? wellFormed_fifthPowerArena hn
  have hx : intern (.symbol 0) fifthPowerArena = (.ok ⟨0⟩, fifthPowerArena) := hintern rfl
  have hfive : intern (.integer 5) fifthPowerArena = (.ok ⟨1⟩, fifthPowerArena) := hintern rfl
  have hpower : intern (.power ⟨0⟩ ⟨1⟩) fifthPowerArena = (.ok ⟨2⟩, fifthPowerArena) := hintern rfl
  have ha : intern (.symbol 1) fifthPowerArena = (.ok ⟨3⟩, fifthPowerArena) := hintern rfl
  have hminus : intern (.opposite ⟨3⟩) fifthPowerArena = (.ok ⟨4⟩, fifthPowerArena) := hintern rfl
  have hsum : intern (.sum [⟨2⟩, ⟨4⟩]) fifthPowerArena = (.ok ⟨5⟩, fifthPowerArena) := hintern rfl
  have hone : intern (.integer 1) fifthPowerArena = (.ok ⟨6⟩, fifthPowerArena) := hintern rfl
  have hminus' : intern (.opposite ⟨6⟩) fifthPowerArena = (.ok ⟨7⟩, fifthPowerArena) := hintern rfl
  have hsum' : intern (.sum [⟨2⟩, ⟨7⟩]) fifthPowerArena = (.ok ⟨8⟩, fifthPowerArena) := hintern rfl
  have hvalue : (fifthPowerContext.definitions fifthPowerArena).value? 1 = some (.integer 1) := rfl
  have hfree : (fifthPowerContext.definitions fifthPowerArena).value? 0 = none := rfl
  have hmeet : ExpandM.meet 1 (fifthPowerArena, { met := [0] }) =
      (.ok (), (fifthPowerArena, { met := [0, 1] })) := rfl
  have hexpression : fifthPowerArena.expression ⟨5⟩ =
      .sum [.power (.symbol 0) (.integer 5), .opposite (.symbol 1)] := rfl
  rw [hexpression]
  cases mode
  · simp [-bind_pure_comp, hx, hfive, hpower, hone, hminus', hsum', hvalue, hfree]
  · simp [-bind_pure_comp, hx, hfive, hpower, hmeet, ha, hminus, hsum]

end Runs

/-- No function occurs, so it does not matter what simplifies them. -/
theorem canonical_fifthPowerArena (mode : Mode) (simplifier : Simplifier) (moment : Nat) :
    canonical ⟨fifthPowerContext, mode, {}, simplifier, moment⟩ ⟨5⟩ fifthPowerArena =
      (.ok (fifthPowerCanonical mode), fifthPowerArena) := by
  have hbound : ((fifthPowerArena.expression ⟨8⟩).form {}).map (fun f => Canonical.mk f
      ([0].filter fun s => f.mentions s || ([] : List Nat).contains s)) =
        .ok (fifthPowerCanonical .replaceAll) := by decide +kernel
  have hfree : ((fifthPowerArena.expression ⟨5⟩).form {}).map (fun f => Canonical.mk f
      ([0, 1].filter fun s => f.mentions s || ([] : List Nat).contains s)) =
        .ok (fifthPowerCanonical .functionsOnly) := by decide +kernel
  have hexpand := expand_fifthPowerArena mode
  cases mode
  · exact canonical_of_plain ⟨_, .replaceAll, {}, simplifier, moment⟩ hexpand rfl hbound
  · exact canonical_of_plain ⟨_, .functionsOnly, {}, simplifier, moment⟩ hexpand rfl hfree

end Build

namespace EquationStore

/-- The system with one equation. -/
def single (e : Equation) : EquationStore where
  slots := (Vector.replicate maxVariables none).set 0 (some e) (Nat.succ_pos _)

theorem equations_single (e : Equation) : (single e).equations = [e] := rfl

theorem tidy_single (e : Equation) (Γ : Context Handle) (A : Arena) :
    ((single e).tidy Γ A).2 = A := rfl

/-- The equation `x⁵ = a`, with bounds that have been set for a search. -/
def fifthPower : EquationStore := { single ⟨⟨2⟩, ⟨3⟩⟩ with interval := { min := -5.0, max := 5.0 } }

/-- The catalog of a pass over `x⁵ = a`. -/
def fifthPowerCatalog (mode : Mode) : Catalog where
  unknowns := (fifthPowerCanonical mode).symbols
  predefined := [1]
  forms := [(fifthPowerCanonical mode).form]

theorem classify_fifthPower (mode : Mode) (simplifier : Simplifier) (moment : Nat) :
    Catalog.classify ⟨fifthPowerContext, mode, {}, simplifier, moment⟩ [⟨5⟩] ({}, fifthPowerArena) =
      (.ok (), (fifthPowerCatalog mode, fifthPowerArena)) := by
  have hsymbolic := Build.canonical_fifthPowerArena .functionsOnly simplifier moment
  rw [Catalog.classify_singleton, bind_run]
  cases mode with
  | replaceAll =>
    rw [Catalog.noteEquation_of_replaced
      (c := ⟨fifthPowerContext, .replaceAll, {}, simplifier, moment⟩) rfl (by decide) hsymbolic
      nofun (Build.canonical_fifthPowerArena .replaceAll simplifier _)]
    rfl
  | functionsOnly =>
    rw [Catalog.noteEquation_run
      (c := ⟨fifthPowerContext, .functionsOnly, {}, simplifier, moment⟩) (by decide) hsymbolic]
    rfl

/-- What a pass over `x⁵ = a` comes to. -/
def fifthPowerStatus : Mode → Status
  | .replaceAll => .requireApproximateSolution
  | .functionsOnly => .nonLinearSystem

theorem solveCatalog_fifthPower (mode : Mode) {s : EquationStore}
    (hs : s.catalog = fifthPowerCatalog mode) (A : Arena) :
    (solveCatalog options {} mode [⟨5⟩] (s, A)).1 = .ok (fifthPowerStatus mode) ∨
      (solveCatalog options {} mode [⟨5⟩] (s, A)).1 = .error (.status (fifthPowerStatus mode)) := by
  have hlinear : LinearSystem.solve (fifthPowerCatalog mode).forms
      (fifthPowerCatalog mode).unknowns = .notLinear := by
    cases mode <;> decide +kernel
  have hequation :
      solveCatalog options {} mode [⟨5⟩] (s, A) = solveEquation options {} mode [⟨5⟩] (s, A) := by
    unfold solveCatalog
    rw [bind_run]
    dsimp only [Stage.look]
    rw [hs, hlinear]
  rw [hequation]
  unfold solveEquation
  rw [bind_run]
  dsimp only [Stage.look]
  rw [hs]
  cases mode with
  | replaceAll =>
    have hroots : Form.polynomialRoots? {} (fifthPowerCanonical .replaceAll).form 0 = none := by
      decide +kernel
    simp only [fifthPowerCatalog, show (fifthPowerCanonical .replaceAll).symbols = [0] from rfl,
      hroots]
    exact .inl rfl
  | functionsOnly => exact .inr rfl

theorem standardForm_fifthPower :
    Equation.standardForm ⟨⟨2⟩, ⟨3⟩⟩ fifthPowerArena = (.ok ⟨5⟩, fifthPowerArena) := by
  have hminus : Build.opposite ⟨3⟩ fifthPowerArena = (.ok ⟨4⟩, fifthPowerArena) :=
    Build.intern_of_node? Build.wellFormed_fifthPowerArena rfl
  unfold Equation.standardForm Build.difference
  rw [bind_run, hminus]
  exact Build.intern_of_node? Build.wellFormed_fifthPowerArena rfl

/-- The first pass asks for a search, and the second finds the system not to be linear. -/
theorem exists_ofPass_fifthPower (mode : Mode) (simplifier : Simplifier) (moment : Nat) :
    ∃ P, Outcome.ofPass fifthPowerContext { simplifier, moment } fifthPower.slots fifthPowerArena
        mode = .ok P ∧
      P.status = fifthPowerStatus mode ∧ P.catalog = fifthPowerCatalog mode := by
  let options : SolveOptions := { simplifier, moment }
  have hp : options.preferences.forEquations (fifthPowerContext.definitions fifthPowerArena) mode
      [fifthPowerArena.expression ⟨5⟩] = {} := by
    cases mode <;> rfl
  let t : EquationStore :=
    { fifthPower with
      catalog := fifthPowerCatalog mode
      results := { replaced := decide (mode = .replaceAll) }
      interval := {} }
  have hpass : solvePass fifthPowerContext options mode
      ({ slots := fifthPower.slots, results := {} }, fifthPowerArena) =
        solveCatalog options {} mode [⟨5⟩] (t, fifthPowerArena) :=
    solvePass_of_classify (equations_single _) standardForm_fifthPower hp
      (classify_fifthPower mode simplifier moment)
  have ht : t.catalog = fifthPowerCatalog mode := rfl
  have hstatus :
      (solveCatalog options {} mode [⟨5⟩] (t, fifthPowerArena)).1 = .ok (fifthPowerStatus mode) ∨
        (solveCatalog options {} mode [⟨5⟩] (t, fifthPowerArena)).1 =
          .error (.status (fifthPowerStatus mode)) :=
    solveCatalog_fifthPower mode ht fifthPowerArena
  have hcatalog : Along Eq (fun x : EquationStore × Arena => x.1.catalog)
      (solveCatalog options {} mode [⟨5⟩]) := solveCatalog_catalog {} [⟨5⟩]
  have hkept := hcatalog (t, fifthPowerArena)
  unfold Outcome.ofPass
  rw [hpass]
  rcases hrun : solveCatalog options {} mode [⟨5⟩] (t, fifthPowerArena) with ⟨r, u, B⟩
  rw [hrun] at hstatus hkept
  obtain rfl | rfl : r = .ok (fifthPowerStatus mode) ∨
    r = .error (.status (fifthPowerStatus mode)) := hstatus
  · exact ⟨_, rfl, rfl, hkept.symm.trans ht⟩
  · exact ⟨_, rfl, rfl, hkept.symm.trans ht⟩

theorem not_final_fifthPower {P : Outcome} (hstatus : P.status = fifthPowerStatus .replaceAll)
    (hcatalog : P.catalog = fifthPowerCatalog .replaceAll) : ¬ P.Final := by
  rintro (hnone | ⟨hnoError, -⟩)
  · cases hcatalog ▸ hnone
  · cases hstatus.symm.trans hnoError

/-- The second pass is chosen. -/
theorem exists_ofSolve_fifthPower (simplifier : Simplifier) : ∃ Q,
    Outcome.ofSolve fifthPowerContext { simplifier } fifthPower.slots fifthPowerArena = .ok Q ∧
      Q.status = .nonLinearSystem := by
  obtain ⟨P, hP, hPstatus, hPcatalog⟩ := exists_ofPass_fifthPower .replaceAll simplifier 0
  obtain ⟨Q, hQ, hQstatus, -⟩ := exists_ofPass_fifthPower .functionsOnly simplifier
    (({ simplifier } : SolveOptions).afterPasses 1).moment
  have hfinal : ¬ P.Final := not_final_fifthPower hPstatus hPcatalog
  have hbeats : ¬ P.Beats Q := fun h => by cases hPstatus.symm.trans h.1
  refine ⟨Q, ?_, hQstatus⟩
  unfold Outcome.ofSolve
  rw [hP, Outcome.chosen_of_not_final hfinal]
  have hsecond : Outcome.ofPass fifthPowerContext (({ simplifier } : SolveOptions).afterPasses 1)
      fifthPower.slots fifthPowerArena .functionsOnly = .ok Q := hQ
  rw [hsecond]
  exact if_neg hbeats

theorem solve_fifthPower (simplifier : Simplifier) :
    (fifthPower.solve fifthPowerContext { simplifier } fifthPowerArena).1 =
      .ok .nonLinearSystem := by
  obtain ⟨Q, hQ, hstatus⟩ := exists_ofSolve_fifthPower simplifier
  obtain ⟨i, -, hsolve⟩ := fifthPower.exists_solve_eq_leave fifthPowerContext { simplifier }
    fifthPowerArena
  have htidy : (fifthPower.tidy fifthPowerContext fifthPowerArena).2 = fifthPowerArena := rfl
  rw [hsolve, htidy, hQ]
  exact congrArg Except.ok hstatus

end EquationStore

end Resolvent

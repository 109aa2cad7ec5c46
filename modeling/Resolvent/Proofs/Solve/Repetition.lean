import Resolvent.Proofs.Form.Built
import Resolvent.Proofs.Form.RoundTrip
import Resolvent.Proofs.Rewriting.Simplification
import Resolvent.Proofs.Solve.SingleEquation

/-!
# The choice between the passes of a solve

Where the simplifier repeats its answers, a pass does not depend on the moment at which it is made
(`EquationStore.ofPass_moment`).  A solve is then a choice between two independent passes, one for
each way to treat stored variables, and the pass that is made a third time repeats the first
(`EquationStore.solve_eq_chosen`).

A pass need not come to an outcome.  It may lack nodes, and it may meet a power whose exponent is the
least word, on which the calls for powers do not return.  Then there is no answer, although the
equation is as harmless as `x ^ k = 0` (`EquationStore.solve_leastPower`).
-/

namespace Resolvent

namespace EquationStore

variable {Γ : Context Handle} {options : SolveOptions} {mode : Mode}
  {slots : Vector (Option Equation) maxVariables} {e : Equation} {h : Handle} {A B C : Arena}

/-! ### Repeated passes -/

section Repeatable

variable {p : Preferences} {simplifier : Simplifier}

theorem canonical_moment (hs : simplifier.Repeatable) (mode : Mode) (m n : Nat) (h : Handle) :
    Build.canonical ⟨Γ, mode, p, simplifier, m⟩ h = Build.canonical ⟨Γ, mode, p, simplifier, n⟩ h := by
  have hsimplify : Canonizer.simplify ⟨Γ, mode, p, simplifier, m⟩ =
      Canonizer.simplify ⟨Γ, mode, p, simplifier, n⟩ := funext (hs m n)
  unfold Build.canonical
  rw [hsimplify]

theorem noteEquation_moment (hs : simplifier.Repeatable) (mode : Mode) (m n : Nat) (h : Handle) :
    Catalog.noteEquation ⟨Γ, mode, p, simplifier, m⟩ h =
      Catalog.noteEquation ⟨Γ, mode, p, simplifier, n⟩ h := by
  unfold Catalog.noteEquation Canonizer.later
  dsimp only
  rw [canonical_moment hs .functionsOnly m n, canonical_moment hs mode (m + 1) (n + 1),
    canonical_moment hs mode m n]

theorem noteAll_moment (hs : simplifier.Repeatable) (mode : Mode) (m n : Nat) (handles : List Handle) :
    Catalog.noteAll ⟨Γ, mode, p, simplifier, m⟩ handles =
      Catalog.noteAll ⟨Γ, mode, p, simplifier, n⟩ handles := by
  induction handles generalizing m n with
  | nil => rfl
  | cons h handles ih =>
    rw [Catalog.noteAll, Catalog.noteAll, noteEquation_moment hs mode m n]
    exact congrArg (Catalog.noteEquation ⟨Γ, mode, p, simplifier, n⟩ h >>= ·) (funext fun _ => ih _ _)

/-- A pass does the same at all moments, if the simplifier does. -/
theorem solvePass_moment {options : SolveOptions} (hs : options.simplifier.Repeatable) (mode : Mode)
    (m : Nat) : solvePass Γ { options with moment := m } mode = solvePass Γ options mode := by
  have hforms : ∀ handles, solveForms Γ { options with moment := m } mode handles =
      solveForms Γ options mode handles := fun handles => by
    unfold solveForms Catalog.classify SolveOptions.canonizer
    simp only [noteAll_moment hs mode m options.moment]
    rfl
  unfold solvePass
  simp only [hforms]

/-- So each pass comes to the same at all moments. -/
theorem ofPass_moment {options : SolveOptions} (hs : options.simplifier.Repeatable)
    (slots : Vector (Option Equation) maxVariables) (A : Arena) (mode : Mode) (m : Nat) :
    Outcome.ofPass Γ { options with moment := m } slots A mode =
      Outcome.ofPass Γ options slots A mode := by
  unfold Outcome.ofPass
  rw [solvePass_moment hs]

/-- Above all at those of the later passes of a solve. -/
theorem ofPass_afterPasses {options : SolveOptions} (hs : options.simplifier.Repeatable)
    (slots : Vector (Option Equation) maxVariables) (A : Arena) (mode : Mode) (n : Nat) :
    Outcome.ofPass Γ (options.afterPasses n) slots A mode = Outcome.ofPass Γ options slots A mode :=
  ofPass_moment hs slots A mode _

end Repeatable

/-- A solve makes a choice between two independent passes: it leaves the store and the arena as the
chosen outcome has them, and only the interval of a search may be that of a pass that was not chosen.
It makes the passes that the choice needs, and never more than three. -/
theorem solve_eq_chosen (s : EquationStore) (Γ : Context Handle) {options : SolveOptions}
    (hsimplifier : options.simplifier.Repeatable) (A : Arena) :
    let A₀ := (s.tidy Γ A).2
    let P := Outcome.ofPass Γ options s.slots A₀ .replaceAll
    let Q := Outcome.ofPass Γ options s.slots A₀ .functionsOnly
    (∃ i, (i = s.interval ∨ i = {}) ∧
      s.solve Γ options A = Outcome.leave s.slots i A₀ (Outcome.chosen P Q P)) ∧
    Passes Γ options A₀.checkpoint .boundValues (s.tidy Γ A).1 A₀ (Outcome.passes P Q)
      (resolve Γ options A₀.checkpoint .boundValues (s.tidy Γ A).1 A₀) ∧
    (Outcome.passes P Q).length ≤ 3 := by
  intro A₀ P Q
  have hpass : ∀ mode n, Outcome.ofPass Γ (options.afterPasses n) s.slots A₀ mode =
      Outcome.ofPass Γ options s.slots A₀ mode := ofPass_afterPasses hsimplifier s.slots A₀
  obtain ⟨i, hi, hsolve⟩ := s.exists_solve_eq_leave Γ options A
  obtain ⟨j, -, hpasses⟩ := passes_chosen Γ options (s.tidy Γ A).1 A₀
  rw [← hpasses.resolve_eq, show (s.tidy Γ A).1.slots = s.slots from rfl, hpass] at hpasses
  rw [Outcome.ofSolve, hpass, hpass] at hsolve
  exact ⟨⟨i, hi, hsolve⟩, hpasses, Outcome.length_passes P Q⟩

/-- The theorem at `x⁵ = a` with the definition `a = 1`: of the two passes that are made, the second
is chosen. -/
theorem solve_eq_chosen_fifthPower :
    (Simplifier.saturation).Repeatable ∧
      Passes fifthPowerContext { simplifier := .saturation } fifthPowerArena.checkpoint .boundValues
        (fifthPower.tidy fifthPowerContext fifthPowerArena).1 fifthPowerArena
        [.replaceAll, .functionsOnly]
        (resolve fifthPowerContext { simplifier := .saturation } fifthPowerArena.checkpoint
          .boundValues (fifthPower.tidy fifthPowerContext fifthPowerArena).1 fifthPowerArena) ∧
      ∃ Q i, Outcome.ofPass fifthPowerContext { simplifier := .saturation } fifthPower.slots
          fifthPowerArena .functionsOnly = .ok Q ∧ Q.status = .nonLinearSystem ∧
        fifthPower.solve fifthPowerContext { simplifier := .saturation } fifthPowerArena =
          Outcome.leave fifthPower.slots i fifthPowerArena (.ok Q) := by
  have hrepeatable := Simplifier.saturation_repeatable {}
  obtain ⟨P, hP, hPstatus, hPcatalog⟩ := exists_ofPass_fifthPower .replaceAll .saturation 0
  obtain ⟨Q, hQ, hQstatus, -⟩ := exists_ofPass_fifthPower .functionsOnly .saturation 0
  have hfinal : ¬ P.Final := not_final_fifthPower hPstatus hPcatalog
  have hbeats : ¬ P.Beats Q := fun h => by cases hPstatus.symm.trans h.1
  obtain ⟨⟨i, -, hsolve⟩, hpasses, -⟩ := @solve_eq_chosen fifthPower fifthPowerContext
    { simplifier := .saturation } hrepeatable fifthPowerArena
  have htidy : (fifthPower.tidy fifthPowerContext fifthPowerArena).2 = fifthPowerArena := rfl
  rw [htidy, hP, hQ] at hsolve hpasses
  rw [Outcome.chosen_of_not_final hfinal] at hsolve
  have hmodes : Outcome.passes (.ok P) (.ok Q) = [.replaceAll, .functionsOnly] := by
    unfold Outcome.passes
    dsimp only
    rw [if_neg hfinal, if_neg hbeats]
  rw [hmodes] at hpasses
  refine ⟨hrepeatable, hpasses, Q, i, hQ, hQstatus, hsolve.trans ?_⟩
  exact congrArg (Outcome.leave _ i _) (if_neg hbeats)

/-! ### A power without an answer -/

/-- A pass has no outcome where the symbolic form of its equation has no answer. -/
theorem ofPass_of_overflows {p : Preferences} (hequations : equations { slots } = [e])
    (hstandard : e.standardForm A = (.ok h, B))
    (hp : options.preferences.forEquations (Γ.definitions B) mode [B.expression h] = p)
    (hsymbolic : Build.canonical (options.canonizer Γ .functionsOnly p) h B =
      (.error .overflow, C)) :
    Outcome.ofPass Γ options slots A mode = .error .overflow := by
  have hnote : Catalog.noteEquation (options.canonizer Γ mode p) h ({}, B) =
      (.error (.error .overflow), ({}, C)) := by
    rw [Catalog.noteEquation_run (c := options.canonizer Γ mode p) (by decide) hsymbolic,
      if_pos (.inr rfl)]
    rfl
  have hclassify : Catalog.classify (options.canonizer Γ mode p) [h] ({}, B) =
      (.error (.error .overflow), ({}, C)) := by
    rw [Catalog.classify_singleton, bind_run, hnote]
  have hpass := solvePass_of_ok Γ options mode (s := { slots, results := {} })
    (hequations ▸ mapM_standardForm_singleton hstandard)
  unfold Outcome.ofPass
  rw [hpass, solveForms_singleton hp, bind_run]
  dsimp only [onCatalog, Stage.onPart]
  rw [hclassify]

end EquationStore

namespace Form

/-- A form that is the inverse of its inverse has inverses without end. -/
theorem inversesEnd_eq_false {f g : Form} (hf : f.inverse? = some g) (hg : g.inverse? = some f)
    (room : Nat) : f.inversesEnd room = false ∧ g.inversesEnd room = false := by
  induction room with
  | zero => exact ⟨rfl, rfl⟩
  | succ room ih =>
    rw [inversesEnd, inversesEnd, hf, hg]
    exact ih.symm

/-- The power of a symbol whose exponent is the least word has no answer. -/
theorem power_symbol_leastWord (p : Preferences) :
    power p (symbol 0) (ofRat leastWord) = .error .overflow := by
  have hinverse : symbolInverse.inverse? = some (symbol 0) := by decide +kernel
  have hends := (inversesEnd_eq_false inverse?_symbol hinverse callRoom).1
  have hzero : (symbol 0).isZero = false := by decide +kernel
  have hword : Rational.toInt64? (leastWord : Rat) = some leastWord := by decide +kernel
  rw [power, toRat?_ofRat]
  dsimp only
  rw [hzero, rationalPower, hword]
  dsimp only
  rw [wordPower, if_pos rfl, hends]
  rfl

end Form

theorem Expression.form_power {p : Preferences} {base exponent : Expression} {b k : Form}
    (hbase : base.isE = false) (hk : exponent.form p = .ok k) (hb : base.form p = .ok b) :
    (power base exponent).form p = Form.power p b k := by
  rw [form, hk]
  simp only [bind, Except.bind, hbase, hb, Bool.false_eq_true, if_false]

/-- The nodes of `x ^ k - 0`, where the exponent is the least word. -/
def leastPowerArena : Arena := .ofNodes ["x"]
  [.symbol 0, .integer Form.leastWord, .power ⟨0⟩ ⟨1⟩, .integer 0, .opposite ⟨3⟩, .sum [⟨2⟩, ⟨4⟩]]
  (List.nodup_singleton _)

namespace Build

theorem wellFormed_leastPowerArena : leastPowerArena.WellFormed :=
  .ofNodes (by decide) (by decide) (by decide)

theorem expression_leastPowerArena : leastPowerArena.expression ⟨5⟩ =
    .sum [.power (.symbol 0) (.integer Form.leastWord), .opposite (.integer 0)] := rfl

theorem form_leastPowerArena :
    (leastPowerArena.expression ⟨5⟩).form {} = .error .overflow := by
  have hpower : (Expression.power (.symbol 0) (.integer Form.leastWord)).form {} =
      .error .overflow :=
    (Expression.form_power rfl (Expression.form_integer {} _) rfl).trans
      (Form.power_symbol_leastWord {})
  rw [expression_leastPowerArena, Expression.form, Expression.forms, hpower]
  rfl

theorem canonical_leastPowerArena (mode : Mode) (simplifier : Simplifier) (moment : Nat) :
    canonical ⟨{}, mode, {}, simplifier, moment⟩ ⟨5⟩ leastPowerArena =
      (.error .overflow, leastPowerArena) := by
  have hwritten : (leastPowerArena.expression ⟨5⟩).Written (· = 0) := by
    rw [expression_leastPowerArena]
    refine .sum (Nat.le_refl 2) (List.forall_mem_cons.2 ⟨.power (.symbol rfl) (.integer _), ?_⟩)
    exact List.forall_mem_singleton.2 (.opposite (.integer 0))
  obtain ⟨met, hmet⟩ : ∃ met, expand (({} : Context Handle).definitions leastPowerArena) mode
      (leastPowerArena.expression ⟨5⟩) leastPowerArena = (.ok (⟨5⟩, met), leastPowerArena) :=
    hwritten.expand wellFormed_leastPowerArena (value?_of_isEmpty rfl leastPowerArena) rfl
  refine canonical_of_plain ⟨{}, mode, {}, simplifier, moment⟩ hmet rfl ?_
  dsimp only
  rw [form_leastPowerArena]
  rfl

end Build

namespace EquationStore

/-- The equation `x ^ k = 0`, where the exponent is the least word. -/
def leastPower : EquationStore := single ⟨⟨2⟩, ⟨3⟩⟩

/-- A solve that has no answer, neither an outcome of a pass nor that there are no nodes left. -/
theorem solve_leastPower :
    (leastPower.solve {} { simplifier := .saturation } leastPowerArena).1 = .error .overflow := by
  have hstandard : Equation.standardForm ⟨⟨2⟩, ⟨3⟩⟩ leastPowerArena =
      (.ok ⟨5⟩, leastPowerArena) := by
    have hminus : Build.opposite ⟨3⟩ leastPowerArena = (.ok ⟨4⟩, leastPowerArena) :=
      Build.intern_of_node? Build.wellFormed_leastPowerArena rfl
    unfold Equation.standardForm Build.difference
    rw [bind_run, hminus]
    exact Build.intern_of_node? Build.wellFormed_leastPowerArena rfl
  have hpass : Outcome.ofPass {} { simplifier := .saturation } leastPower.slots leastPowerArena
      .replaceAll = .error .overflow :=
    ofPass_of_overflows (equations_single _) hstandard rfl
      (Build.canonical_leastPowerArena .functionsOnly .saturation 0)
  obtain ⟨i, -, hsolve⟩ := leastPower.exists_solve_eq_leave {} { simplifier := .saturation }
    leastPowerArena
  have htidy : (leastPower.tidy {} leastPowerArena).2 = leastPowerArena := rfl
  rw [hsolve, htidy, Outcome.ofSolve, hpass]
  rfl

end EquationStore

end Resolvent

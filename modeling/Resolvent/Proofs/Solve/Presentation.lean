import Resolvent.Proofs.Expression.Growth
import Resolvent.Proofs.Form.Gaussian
import Resolvent.Proofs.Numeric.Overflow
import Resolvent.Proofs.Solve.LinearSystem
import Resolvent.Proofs.Solve.Variables

/-!
# How the solutions of linear systems are presented

A constant is shown as a number where its double is finite.  For numbers of moderate size that is a
matter of the numerator alone (`Rendition.kind_ofForm_ofRat`), and a numerator without a finite double
makes the solution disappear and the equation undefined, however ordinary its value is.

Answers are presented one by one: a solution is listed for each that is shown, and the status is that
of an undefined equation if one of them is undefined (`Solution.presentAll_run`).  So a linear system
with a single solution of moderate size is solved without an error and with one solution for each
unknown if the numerators are not too large, and is undefined otherwise
(`EquationStore.solve_of_moderate`).
-/

namespace Resolvent

/-! ### Constants -/

/-- The numerator has a finite double. -/
def Rational.HasFiniteNumerator (q : Rat) : Prop := q.num.natAbs < Double.leastInfinite

instance (q : Rat) : Decidable (Rational.HasFiniteNumerator q) := inferInstanceAs (Decidable (_ < _))

namespace Form

variable (unit : AngleUnit)

theorem isFinite_constantValue_ofRat {q : Rat} (hsize : |q| ≤ 10 ^ 300) :
    ((ofRat q).constantValue unit).isFinite = decide (Rational.HasFiniteNumerator q) := by
  by_cases hq : q = 0
  · subst hq
    have hzero : Rational.HasFiniteNumerator 0 := Double.leastInfinite_pos
    rw [decide_eq_true hzero, ofRat, if_pos rfl, constantValue_zero]
    rfl
  · have hre := Double.isFinite_zero_add (Double.ofRational q)
    have him : ((0.0 : Float) + 0.0).isFinite = true := Double.isFinite_zero_add 0.0
    rw [Double.isFinite_ofRational hsize] at hre
    rw [constantValue_ofRat hq]
    exact (congrArg (_ && ·) him).trans ((Bool.and_true _).trans hre)

end Form

/-- A constant of moderate size is shown as a number if its numerator has a finite double, and is
undefined otherwise, whatever the preferences are. -/
theorem Rendition.kind_ofForm_ofRat (p : Preferences) {q : Rat} (hsize : |q| ≤ 10 ^ 300) :
    (ofForm p (.ofRat q)).kind =
      if Rational.HasFiniteNumerator q then .finite else .undefined := by
  have hfinite := Form.isFinite_constantValue_ofRat p.angleUnit hsize
  have hreal : isReal (.ofRat q) ((Form.ofRat q).constantValue p.angleUnit) = true := by
    rw [isReal, Form.splitComplex?_of_isKnownReal (Form.isKnownReal_ofRat q)]
    rfl
  unfold ofForm
  dsimp only
  rw [hfinite, hreal]
  by_cases h : Rational.HasFiniteNumerator q <;> simp [h, undefined]

/-! ### Answers, presented one by one -/

/-- The expression of a number in doubles has few parts. -/
theorem Complex.parts_display_le (p : Preferences) (z : Complex) : (z.display p).parts ≤ 8 := by
  unfold display polarExpression imaginaryExpression Form.unitPower Expression.ofFloat
  dsimp only
  repeat' split
  all_goals simp [Expression.parts, Expression.partsOfAll, Expression.productOf, Expression.sumOf]

theorem Expression.one_le_parts (e : Expression) : 1 ≤ e.parts := by
  cases e <;> simp [parts] <;> omega

namespace Answer

variable (p : Preferences)

/-- The number of nodes that the expressions of an answer take at most. -/
def parts (answer : Answer) : Nat :=
  (answer.rendition p).exact.parts + (answer.rendition p).approximate.parts

/-- The answer is shown as a number. -/
def isShown (answer : Answer) : Bool := (answer.rendition p).isFinite

/-- The answer is no finite number. -/
def isUndefined (answer : Answer) : Bool := (answer.rendition p).kind == .undefined

theorem parts_exact_le (f : Form) : (exact f).parts p ≤ (f.display p).parts + 8 := by
  have hundefined := (f.display p).one_le_parts
  unfold parts rendition Rendition.ofForm
  dsimp only
  split
  · exact Nat.add_le_add hundefined (Nat.le_add_left 1 7)
  · split
    · exact Nat.add_le_add hundefined (Nat.le_add_left 1 7)
    · exact Nat.add_le_add_left (Complex.parts_display_le _ _) _

end Answer

/-- The status behind answers: undefined ones make the equation undefined. -/
def Status.behind (p : Preferences) (status : Status) (answers : List Answer) : Status :=
  if answers.any (Answer.isUndefined p) then .equationUndefined else status

namespace Stage

variable {σ α β : Type}

/-- With room for what is stored, the stage goes on. -/
theorem build_bind_run {m : Build α} {n k : Nat} (hm : Build.Fits n m) {A : Arena}
    (hA : A.HasRoomFor (n + k)) (s : σ) (f : α → Stage σ β) :
    ∃ a B, (Stage.build m >>= f) (s, A) = f a (s, B) ∧ A.GrownBy n B := by
  obtain ⟨a, B, hrun, hgrown⟩ := hm A (hA.of_le (Nat.le_add_right n k))
  refine ⟨a, B, ?_, hgrown⟩
  rw [bind_run, build, hrun]

end Stage

namespace Solution

variable (p : Preferences) (exam : ExamMode) (status : Status)

theorem present_run (answer : Answer) (l : List Solution) {A : Arena} {n : Nat}
    (hA : A.HasRoomFor (answer.parts p + n)) :
    ∃ listed B, present p exam status answer (l, A) =
        (.ok (status.behind p [answer]), (l ++ listed, B)) ∧
      listed.length = ([answer].filter (Answer.isShown p)).length ∧ B.HasRoomFor n := by
  unfold present
  rw [Answer.parts, Nat.add_assoc] at hA
  obtain ⟨exact, B, hrun, hB⟩ := Stage.build_bind_run
    (Build.store_fits (answer.rendition p).exact) hA l _
  obtain ⟨approximate, C, hrun', hC⟩ := Stage.build_bind_run
    (Build.store_fits (answer.rendition p).approximate) (hB.hasRoomFor hA) l _
  have hroom := hC.hasRoomFor (hB.hasRoomFor hA)
  rw [hrun, hrun', bind_run]
  dsimp only [Stage.arena]
  have hkinds (k : ValueKind) : k = .unreal ∨ k = .undefined ∨ k = .finite := by cases k <;> simp
  unfold Status.behind Answer.isShown Answer.isUndefined Rendition.isFinite
  obtain hkind | hkind | hkind := hkinds (answer.rendition p).kind
  · exact ⟨[], C, by simp [hkind, pure_run], by simp [hkind], hroom⟩
  · exact ⟨[], C, by simp [hkind, pure_run], by simp [hkind], hroom⟩
  · refine ⟨[ofAnswer C exam answer (answer.rendition p) exact approximate], C, ?_,
      by simp [hkind], hroom⟩
    simp [hkind, bind_run, Stage.update, pure_run]

/-- **Answers as they are presented**: with room for their expressions, as many solutions are listed
as there are answers that are shown, and undefined answers make the equation undefined. -/
theorem presentAll_run (answers : List Answer) (l : List Solution) {A : Arena}
    (hA : A.HasRoomFor (answers.map (Answer.parts p)).sum) :
    ∃ listed B, presentAll p exam status answers (l, A) =
        (.ok (status.behind p answers), (l ++ listed, B)) ∧
      listed.length = (answers.filter (Answer.isShown p)).length := by
  induction answers generalizing status l A with
  | nil => exact ⟨[], A, by rw [List.append_nil]; rfl, rfl⟩
  | cons answer answers ih =>
    rw [List.map_cons, List.sum_cons] at hA
    obtain ⟨first, B, hrun, hfirst, hB⟩ := present_run p exam status answer l hA
    obtain ⟨rest, C, hrun', hrest⟩ := ih (status.behind p [answer]) (l ++ first) hB
    refine ⟨first ++ rest, C, ?_, ?_⟩
    · rw [presentAll, bind_run, hrun]
      dsimp only
      rw [hrun', List.append_assoc, Status.behind, Status.behind, Status.behind, List.any_cons,
        List.any_cons, List.any_nil, Bool.or_false]
      cases answer.isUndefined p <;> cases answers.any (Answer.isUndefined p) <;> rfl
    · rw [List.length_append, hfirst, hrest, ← List.length_append, ← List.filter_append,
        List.singleton_append]

end Solution

namespace Catalog

/-! ### Unknowns -/

/-- What is listed without repetitions stays so. -/
def StaysNodup (known known' : List Nat) : Prop := known.Nodup → known'.Nodup

instance : IsPreorder (List Nat) StaysNodup where
  refl _ h := h
  trans _ _ _ h h' hknown := h' (h hknown)

theorem noteForm_unknowns (c : Canonical) (x : Catalog × Arena) :
    (noteForm c x).2.1.unknowns =
      (collectUnknowns (fun _ => true) maxVariables c.symbols x.1.unknowns).1 := by
  unfold noteForm
  rw [bind_run]
  dsimp only [Stage.look]
  rw [bind_run]
  dsimp only [Stage.update]
  rcases (collectUnknowns (fun _ => true) maxVariables c.symbols x.1.unknowns).2 <;> rfl

theorem noteResult_nodup (r : Except CanonicalError Canonical) :
    Along StaysNodup (fun x : Catalog × Arena => x.1.unknowns) (noteResult r) := by
  unfold noteResult
  split
  · next c =>
    intro x hknown
    dsimp only
    rw [noteForm_unknowns c x]
    exact nodup_collectUnknowns _ _ _ hknown
  all_goals exact fun _ => id

theorem noteEquation_nodup (c : Canonizer) (h : Handle) :
    Along StaysNodup (fun x : Catalog × Arena => x.1.unknowns) (noteEquation c h) := by
  have hplain (c : Canonizer) : Along StaysNodup (fun x : Catalog × Arena => x.1.unknowns)
      (Stage.settle (Build.canonical c h) >>= noteResult) :=
    Along.bind (fun _ => id) noteResult_nodup
  refine Along.bind (fun _ => id) fun known => ?_
  split
  · refine Along.bind (fun _ => id) fun symbolic => Along.bind (fun _ => id) fun A =>
      Along.bind (fun x => ?_) fun _ => ?_
    · change StaysNodup _ (x.1.notePredefined _ _ _).unknowns
      rw [notePredefined_unknowns]
      exact id
    · split
      · exact noteResult_nodup _
      · exact hplain c.later
  · exact hplain c

/-- No unknown of a classified system is listed twice. -/
theorem nodup_unknowns {c : Canonizer} {hs : List Handle} {k k' : Catalog} {A B : Arena}
    {r : Except Halt Unit} (hrun : classify c hs (k, A) = (r, (k', B))) : k'.unknowns.Nodup := by
  have hall : Along StaysNodup (fun x : Catalog × Arena => x.1.unknowns) (noteAll c hs) := by
    clear hrun
    induction hs generalizing c with
    | nil => exact Along.pure _
    | cons h hs ih => exact (noteEquation_nodup c h).bind fun _ => ih
  have hrun : noteAll c hs ({}, A) = (r, (k', B)) := hrun
  have hstays := hall ({}, A)
  rw [hrun] at hstays
  exact hstays .nil

end Catalog

namespace EquationStore

variable {Γ : Context Handle} {options : SolveOptions} {p : Preferences} {k : Catalog}
  {slots : Vector (Option Equation) maxVariables} {A C : Arena}

/-! ### Systems with a single solution -/

/-- A pass over the equations classifies them, with a catalog and an arena behind. -/
def ClassifiedAs (Γ : Context Handle) (options : SolveOptions) (mode : Mode)
    (slots : Vector (Option Equation) maxVariables) (A : Arena) (p : Preferences) (k : Catalog)
    (C : Arena) : Prop :=
  ∃ hs B, (equations { slots }).mapM Equation.standardForm A = (.ok hs, B) ∧
    options.preferences.forEquations (Γ.definitions B) mode (hs.map B.expression) = p ∧
    Catalog.classify (options.canonizer Γ mode p) hs ({}, B) = (.ok (), (k, C))

/-- A pass that finds one value for each unknown presents these values. -/
theorem exists_ofPass_of_unique {mode : Mode} {values : List Form}
    (hk : ClassifiedAs Γ options mode slots A p k C)
    (hvalues : LinearSystem.solve k.forms k.unknowns = .unique values)
    (hroom : C.HasRoomFor ((values.map .exact).map (Answer.parts p)).sum) :
    ∃ listed D, Outcome.ofPass Γ options slots A mode =
        .ok ⟨Status.noError.behind p (values.map .exact), k,
          { solutions := listed, count := .finite listed.length
            replaced := decide (mode = .replaceAll) }, D⟩ ∧
      listed.length = ((values.map .exact).filter (Answer.isShown p)).length := by
  obtain ⟨hs, B, hstandard, hp, hclassify⟩ := hk
  obtain ⟨listed, D, hrun, hlength⟩ :=
    Solution.presentAll_run p options.exam .noError (values.map .exact) [] hroom
  have hbounded : k.Bounded := by
    have hends := Catalog.classify_ends (options.canonizer Γ mode p) hs ({}, B)
    unfold Stage.Ends at hends
    rw [hclassify] at hends
    exact hends.1
  have hfew : (values.map Answer.exact).length ≤ maxExactSolutions := by
    rw [List.length_map]
    exact (LinearSystem.length_le_of_unique hvalues).trans (hbounded.trans (Nat.le_succ _))
  refine ⟨listed, D, ?_, hlength⟩
  have hclassify' (k₀ : Catalog) : Catalog.classify (options.canonizer Γ mode p) hs (k₀, B) =
      (.ok (), (k, C)) := hclassify
  unfold Outcome.ofPass
  rw [solvePass_of_ok Γ options mode (s := { slots, results := {} }) hstandard, solveForms, bind_run]
  dsimp only [Stage.arena]
  rw [hp, bind_run]
  dsimp only [onCatalog, Stage.onPart]
  rw [hclassify']
  dsimp only
  rw [solveCatalog, bind_run]
  dsimp only [Stage.look]
  rw [hvalues]
  dsimp only
  rw [listAnswers_run hfew rfl, hrun]
  rfl

/-- A solve whose first pass is not to be improved leaves what that pass has found. -/
theorem exists_solve_eq_of_final (s : EquationStore) {P : Outcome}
    (hP : Outcome.ofPass Γ options s.slots (s.tidy Γ A).2 .replaceAll = .ok P)
    (hfinal : P.Final) :
    ∃ i, s.solve Γ options A = Outcome.leave s.slots i (s.tidy Γ A).2 (.ok P) := by
  obtain ⟨i, -, hsolve⟩ := s.exists_solve_eq_leave Γ options A
  refine ⟨i, ?_⟩
  rw [hsolve, Outcome.ofSolve, hP, Outcome.chosen_of_final hfinal]

end EquationStore

/-! ### Constants of moderate size -/

namespace Answer

variable (p : Preferences) {q : Rat} {qs : List Rat}

theorem isShown_ofRat (hsize : |q| ≤ 10 ^ 300) :
    (exact (.ofRat q)).isShown p = decide (Rational.HasFiniteNumerator q) := by
  have hkind : ((exact (.ofRat q)).rendition p).kind = _ := Rendition.kind_ofForm_ofRat p hsize
  rw [isShown, Rendition.isFinite, hkind]
  split <;> simp_all

theorem isUndefined_ofRat (hsize : |q| ≤ 10 ^ 300) :
    (exact (.ofRat q)).isUndefined p = !decide (Rational.HasFiniteNumerator q) := by
  have hkind : ((exact (.ofRat q)).rendition p).kind = _ := Rendition.kind_ofForm_ofRat p hsize
  rw [isUndefined, hkind]
  split <;> simp_all

/-- Exact answers that are constants. -/
def ofRats (qs : List Rat) : List Answer := qs.map fun q => exact (.ofRat q)

theorem length_filter_isShown (hsize : ∀ q ∈ qs, |q| ≤ 10 ^ 300) :
    ((ofRats qs).filter (isShown p)).length =
      (qs.filter fun q => Rational.HasFiniteNumerator q).length := by
  rw [ofRats, List.filter_map, List.length_map]
  exact congrArg List.length (List.filter_congr fun q hq => isShown_ofRat p (hsize q hq))

theorem behind_ofRats (status : Status) (hsize : ∀ q ∈ qs, |q| ≤ 10 ^ 300) :
    status.behind p (ofRats qs) =
      if ∀ q ∈ qs, Rational.HasFiniteNumerator q then status else .equationUndefined := by
  have hany : (ofRats qs).any (isUndefined p) = true ↔ ¬ ∀ q ∈ qs, Rational.HasFiniteNumerator q := by
    simp only [ofRats, List.any_map, List.any_eq_true, Function.comp_apply, not_forall]
    refine exists_congr fun q => ⟨fun ⟨hq, h⟩ => ⟨hq, ?_⟩, fun ⟨hq, h⟩ => ⟨hq, ?_⟩⟩
    · simpa [isUndefined_ofRat p (hsize q hq)] using h
    · simpa [isUndefined_ofRat p (hsize q hq)] using h
  unfold Status.behind
  by_cases h : ∀ q ∈ qs, Rational.HasFiniteNumerator q
  · rw [if_pos h, if_neg fun hundefined => hany.1 hundefined h]
  · rw [if_neg h, if_pos (hany.2 h)]

end Answer

namespace LinearSystem

/-- The forms are linear in the unknowns, of which there are some, and have one solution. -/
structure SolvedBy (forms : List Form) (unknowns : List Nat) (x : Fin unknowns.length → Rat) :
    Prop where
  linear : ∀ f ∈ forms, f.IsLinearIn unknowns
  some_unknown : 0 < unknowns.length
  solves : Solves forms unknowns x
  unique : ∀ y, Solves forms unknowns y → y = x

theorem SolvedBy.solve_eq {forms : List Form} {unknowns : List Nat}
    {x : Fin unknowns.length → Rat} (h : SolvedBy forms unknowns x) (hnodup : unknowns.Nodup) :
    solve forms unknowns = .unique ((List.ofFn x).map .ofRat) := by
  rw [List.map_ofFn]
  rcases solveWith_cases magnitude hnodup h.linear with
    ⟨-, hnone⟩ | ⟨y, hanswer, -, hy, -⟩ | ⟨-, -, hmany⟩
  · exact absurd h.solves (hnone x)
  · exact h.unique y hy ▸ hanswer
  · exact absurd ⟨h.some_unknown, x, h.solves, h.unique⟩ hmany

end LinearSystem

namespace EquationStore

variable {Γ : Context Handle} {options : SolveOptions} {s : EquationStore} {p : Preferences}
  {k : Catalog} {A C : Arena} {x : Fin k.unknowns.length → Rat}

/-- What the first pass over a linear system with a solution of moderate size finds. -/
theorem exists_ofPass_of_moderate
    (hk : ClassifiedAs Γ options .replaceAll s.slots (s.tidy Γ A).2 p k C)
    (hx : LinearSystem.SolvedBy k.forms k.unknowns x) (hsize : ∀ q ∈ List.ofFn x, |q| ≤ 10 ^ 300)
    (hroom : C.HasRoomFor ((Answer.ofRats (List.ofFn x)).map (Answer.parts p)).sum) :
    ∃ P, Outcome.ofPass Γ options s.slots (s.tidy Γ A).2 .replaceAll = .ok P ∧
      P.catalog = k ∧ P.results.kind = .linear ∧
      P.status = (if ∀ q ∈ List.ofFn x, Rational.HasFiniteNumerator q then .noError
        else .equationUndefined) ∧
      P.results.count = .finite P.results.solutions.length ∧
      P.results.solutions.length =
        ((List.ofFn x).filter fun q => Rational.HasFiniteNumerator q).length := by
  have hnodup : k.unknowns.Nodup := by
    obtain ⟨hs, B, -, -, hclassify⟩ := hk
    exact Catalog.nodup_unknowns hclassify
  have hanswers : ((List.ofFn x).map Form.ofRat).map Answer.exact = Answer.ofRats (List.ofFn x) :=
    List.map_map
  obtain ⟨listed, D, hP, hlength⟩ :=
    exists_ofPass_of_unique hk (hx.solve_eq hnodup) (hanswers ▸ hroom)
  rw [hanswers, Answer.length_filter_isShown p hsize] at hlength
  rw [hanswers, Answer.behind_ofRats p _ hsize] at hP
  exact ⟨_, hP, rfl, rfl, rfl, rfl, hlength⟩

/-- **Solutions of moderate size are presented as far as their numerators have finite doubles.**
A constant of moderate size is shown as a number exactly if its numerator has a finite double.
Presenting such constants lists those that are shown, and the equation becomes undefined if there
are others.  So a linear system with a single solution of moderate size is solved without an error
and with one solution for each unknown if all numerators have finite doubles; if not all have one and
the equations have no variables with stored values, then it is undefined and lacks solutions. -/
theorem solve_of_moderate (p : Preferences) :
    (∀ q : Rat, |q| ≤ 10 ^ 300 →
      (Rendition.ofForm p (.ofRat q)).kind =
        if Rational.HasFiniteNumerator q then .finite else .undefined) ∧
    (∀ (exam : ExamMode) (status : Status) (qs : List Rat) (l : List Solution) (A : Arena),
      (∀ q ∈ qs, |q| ≤ 10 ^ 300) →
      A.HasRoomFor ((Answer.ofRats qs).map (Answer.parts p)).sum →
        ∃ listed B, Solution.presentAll p exam status (Answer.ofRats qs) (l, A) =
          (.ok (if ∀ q ∈ qs, Rational.HasFiniteNumerator q then status else .equationUndefined),
            (l ++ listed, B)) ∧
          listed.length = (qs.filter fun q => Rational.HasFiniteNumerator q).length) ∧
    ∀ (Γ : Context Handle) (options : SolveOptions) (s : EquationStore) (A : Arena)
      (k : Catalog) (C : Arena) (x : Fin k.unknowns.length → Rat),
      ClassifiedAs Γ options .replaceAll s.slots (s.tidy Γ A).2 p k C →
      LinearSystem.SolvedBy k.forms k.unknowns x →
      (∀ q ∈ List.ofFn x, |q| ≤ 10 ^ 300) →
      C.HasRoomFor ((Answer.ofRats (List.ofFn x)).map (Answer.parts p)).sum →
        let y := s.solve Γ options A
        ((∀ q ∈ List.ofFn x, Rational.HasFiniteNumerator q) →
          y.1 = .ok .noError ∧ y.2.1.catalog = k ∧ y.2.1.count = .finite k.unknowns.length ∧
            y.2.1.results.solutions.length = k.unknowns.length) ∧
        (k.predefined = [] → (¬ ∀ q ∈ List.ofFn x, Rational.HasFiniteNumerator q) →
          y.1 = .ok .equationUndefined ∧ y.2.1.catalog = k ∧
            y.2.1.count = .finite y.2.1.results.solutions.length ∧
            y.2.1.results.solutions.length < k.unknowns.length) := by
  refine ⟨fun q => Rendition.kind_ofForm_ofRat p, ?_, ?_⟩
  · intro exam status qs l A hsize hroom
    obtain ⟨listed, B, hrun, hlength⟩ :=
      Solution.presentAll_run p exam status (Answer.ofRats qs) l hroom
    refine ⟨listed, B, ?_, hlength.trans (Answer.length_filter_isShown p hsize)⟩
    rw [hrun, Answer.behind_ofRats p status hsize]
  · intro Γ options s A k C x hk hx hsize hroom y
    obtain ⟨P, hP, hcatalog, hkind, hstatus, hcount, hlength⟩ :=
      exists_ofPass_of_moderate hk hx hsize hroom
    have hleave (hfinal : P.Final) : y.1 = .ok P.status ∧ y.2.1.catalog = k ∧
        y.2.1.count = .finite P.results.solutions.length ∧
        y.2.1.results.solutions = P.results.solutions := by
      obtain ⟨i, hsolve⟩ := s.exists_solve_eq_of_final hP hfinal
      rw [show y = _ from hsolve]
      refine ⟨rfl, hcatalog, ?_, rfl⟩
      rw [← hcount, count, Outcome.leave]
      exact if_neg (by rw [hkind]; nofun)
    constructor
    · intro hall
      rw [if_pos hall] at hstatus
      rw [List.filter_eq_self.2 fun q hq => decide_eq_true (hall q hq), List.length_ofFn] at hlength
      have hfinal : P.Final := .inr ⟨hstatus, by
        rw [hcount, hlength]
        exact ⟨fun h => hx.some_unknown.ne' (SolutionCount.finite.inj h), nofun⟩⟩
      obtain ⟨h, hk', hcount', hsolutions⟩ := hleave hfinal
      exact ⟨hstatus ▸ h, hk', hlength ▸ hcount', hsolutions ▸ hlength⟩
    · intro hnone hsome
      rw [if_neg hsome] at hstatus
      obtain ⟨h, hk', hcount', hsolutions⟩ := hleave (.inl (hcatalog ▸ hnone))
      refine ⟨hstatus ▸ h, hk', hsolutions ▸ hcount', hsolutions ▸ hlength ▸ ?_⟩
      -- a value without a finite numerator is filtered out
      obtain ⟨q, hq, hlarge⟩ : ∃ q ∈ List.ofFn x, ¬ Rational.HasFiniteNumerator q := by
        simpa using hsome
      refine lt_of_lt_of_eq ?_ (List.length_ofFn (f := x))
      exact List.length_filter_lt_length_iff_exists.2 ⟨q, hq, by simpa using hlarge⟩

end EquationStore

/-! ### An unknown that is a constant -/

/-- The nodes of `x - c`. -/
def constantNodes (c : Rat) : List Node :=
  [.symbol 0, .fraction c, .opposite ⟨1⟩, .sum [⟨0⟩, ⟨2⟩]]

/-- The arena of these nodes. -/
def constantArena (c : Rat) : Arena := .ofNodes ["x"] (constantNodes c) (List.nodup_singleton _)

theorem maxVariables_pos : 0 < maxVariables := by decide

/-- The equation `x = c`. -/
def symbolIsConstant : EquationStore where
  slots := (Vector.replicate maxVariables none).set 0 (some ⟨⟨0⟩, ⟨1⟩⟩) maxVariables_pos

/-- The form `x - c`. -/
def constantForm (c : Rat) : Form := ⟨[(⟨[]⟩, -c), (⟨[(.symbol 0, 1)]⟩, 1)]⟩

/-- The catalog of the equation. -/
def constantCatalog (c : Rat) : Catalog where
  unknowns := [0]
  forms := [constantForm c]

section

variable (c : Rat)

theorem wellFormed_constantArena : (constantArena c).WellFormed := by
  refine .ofNodes ?_ ?_ ?_
  · simp [constantNodes]
  · simp [constantNodes, Node.children]
  · simp [constantNodes, Node.name?]

theorem intern_constantArena {n : Node} {h : Handle} (hn : (constantArena c).node? h = some n) :
    Build.intern n (constantArena c) = (.ok h, constantArena c) :=
  Build.intern_of_node? (wellFormed_constantArena c) hn

theorem opposite_constantArena : Build.opposite ⟨1⟩ (constantArena c) =
    (.ok ⟨2⟩, constantArena c) := intern_constantArena c rfl

theorem sum_constantArena : Build.sum [⟨0⟩, ⟨2⟩] (constantArena c) = (.ok ⟨3⟩, constantArena c) :=
  intern_constantArena c rfl

theorem standardForm_constantArena : symbolIsConstant.equations.mapM Equation.standardForm
    (constantArena c) = (.ok [⟨3⟩], constantArena c) := by
  have hequations : symbolIsConstant.equations = [⟨⟨0⟩, ⟨1⟩⟩] := by decide
  rw [hequations]
  refine EquationStore.mapM_standardForm_singleton ?_
  rw [Equation.standardForm, Build.difference, bind_run, opposite_constantArena]
  exact sum_constantArena c

open Build in
theorem expand_constantArena (mode : Mode) :
    Build.expand (({} : Context Handle).definitions (constantArena c)) mode
      ((constantArena c).expression ⟨3⟩) (constantArena c) =
      (.ok (⟨3⟩, { met := [0] }), constantArena c) := by
  have hfree : (({} : Context Handle).definitions (constantArena c)).value? 0 = none := rfl
  have hsymbol : intern (.symbol 0) (constantArena c) = (.ok ⟨0⟩, constantArena c) :=
    intern_constantArena c rfl
  have hfraction : intern (.fraction c) (constantArena c) = (.ok ⟨1⟩, constantArena c) :=
    intern_constantArena c rfl
  have hexpression : (constantArena c).expression ⟨3⟩ =
      .sum [.symbol 0, .opposite (.fraction c)] := rfl
  rw [hexpression]
  simp [-bind_pure_comp, Build.expand, expand_eq, Expression.expandWith, pure_run,
    Expression.expandAllWith, Expression.expandSymbol, ExpandM.build, bind_run, meet_run,
    List.lookup_nil, hsymbol, hfraction, hfree, opposite_constantArena, sum_constantArena]

variable {c : Rat} (hform : ((constantArena c).expression ⟨3⟩).form {} = .ok (constantForm c))

include hform

theorem canonical_constantArena (mode : Mode) (simplifier : Simplifier) (moment : Nat) :
    Build.canonical ⟨{}, mode, {}, simplifier, moment⟩ ⟨3⟩ (constantArena c) =
      (.ok ⟨constantForm c, [0]⟩, constantArena c) := by
  refine Build.canonical_of_plain ⟨{}, mode, {}, simplifier, moment⟩ (expand_constantArena c mode)
    rfl ?_
  rw [hform]
  rfl

theorem classifiedAs_constantArena (simplifier : Simplifier) :
    EquationStore.ClassifiedAs {} { simplifier } .replaceAll symbolIsConstant.slots
      (constantArena c) {} (constantCatalog c) (constantArena c) := by
  refine ⟨[⟨3⟩], constantArena c, standardForm_constantArena c, rfl, ?_⟩
  rw [Catalog.classify_singleton, bind_run, Catalog.noteEquation_of_replaced
    (c := ({ simplifier } : SolveOptions).canonizer {} .replaceAll {}) rfl (by decide)
    (canonical_constantArena hform .functionsOnly simplifier 0) nofun
    (canonical_constantArena hform .replaceAll simplifier 1)]
  rfl

omit hform in
theorem solvedBy_constantCatalog (c : Rat) :
    LinearSystem.SolvedBy (constantCatalog c).forms (constantCatalog c).unknowns fun _ => c := by
  have hsolves (x : Fin 1 → Rat) :
      LinearSystem.Solves (constantCatalog c).forms (constantCatalog c).unknowns x ↔ x 0 = c := by
    have hvalue : LinearSystem.Solves (constantCatalog c).forms (constantCatalog c).unknowns x ↔
        -c + x 0 = 0 := by
      simp [LinearSystem.Solves, constantCatalog, constantForm, Form.value, Form.termsValue,
        Monomial.value, Monomial.factorsValue, LinearSystem.assignment, List.idxOf_cons]
    rw [hvalue, neg_add_eq_zero, eq_comm]
  refine ⟨?_, Nat.one_pos, (hsolves _).2 rfl, fun y hy => funext fun (j : Fin 1) => ?_⟩
  · intro f hf t ht
    rw [List.mem_singleton.1 hf] at ht
    rcases List.mem_pair.1 ht with rfl | rfl
    · exact .inl rfl
    · exact .inr ⟨0, List.mem_singleton_self 0, rfl⟩
  · obtain rfl := Subsingleton.elim j 0
    exact (hsolves y).1 hy

omit hform in
theorem hasRoomFor_constantArena (hparts : (Form.display {} (.ofRat c)).parts = 1) :
    (constantArena c).HasRoomFor
      ((Answer.ofRats (List.ofFn fun _ : Fin 1 => c)).map (Answer.parts {})).sum := by
  have hle := Answer.parts_exact_le {} (.ofRat c)
  rw [hparts] at hle
  change 4 + (((Answer.exact (.ofRat c)).parts {}) + 0) ≤ 100
  omega

end

namespace EquationStore

/-- A number next to one with a numerator that has no finite double. -/
def wideNumber : Rat := mkRat (10 ^ 309 + 1) (10 ^ 309)

/-- The equation `x = 1/2` is solved, and `x = (10 ^ 309 + 1) / 10 ^ 309` becomes undefined. -/
theorem solve_of_moderate_constants :
    (Rendition.ofForm {} (.ofRat wideNumber)).kind = .undefined ∧
      (symbolIsConstant.solve {} { simplifier := .saturation } (constantArena (1 / 2))).1 =
        .ok .noError ∧
      (symbolIsConstant.solve {} { simplifier := .saturation } (constantArena wideNumber)).1 =
        .ok .equationUndefined := by
  have hrun (c : Rat) (hform : ((constantArena c).expression ⟨3⟩).form {} = .ok (constantForm c))
      (hparts : (Form.display {} (.ofRat c)).parts = 1) (hsize : |c| ≤ 10 ^ 300) :=
    (solve_of_moderate {}).2.2 {} { simplifier := .saturation } symbolIsConstant (constantArena c)
      (constantCatalog c) (constantArena c) (fun _ => c) (classifiedAs_constantArena hform _)
      (solvedBy_constantCatalog c) (by simpa [constantCatalog] using hsize)
      (hasRoomFor_constantArena hparts)
  have hhalf : Rational.HasFiniteNumerator (1 / 2) := by decide +kernel
  have hwide : ¬ Rational.HasFiniteNumerator wideNumber := by decide +kernel
  have hsize : |wideNumber| ≤ 10 ^ 300 := by decide +kernel
  refine ⟨?_, ?_, ?_⟩
  · rw [(solve_of_moderate {}).1 wideNumber hsize, if_neg hwide]
  · have hsolve := hrun (1 / 2) (by decide +kernel) (by decide +kernel) (by decide +kernel)
    exact (hsolve.1 (by simpa [constantCatalog] using hhalf)).1
  · have hsolve := hrun wideNumber (by decide +kernel) (by decide +kernel) hsize
    exact (hsolve.2 rfl (by simpa [constantCatalog] using hwide)).1

end EquationStore

end Resolvent

import Resolvent.Proofs.Solve.Classification
import Resolvent.Proofs.Solve.SingleEquation

/-!
# What becomes of the interval

The interval in which roots are searched for is the only part of a store that a pass changes and no
later pass sets back.  A pass that leaves the roots to a search puts the standard interval in its
place, and every other pass leaves it alone (`EquationStore.attempt_interval`); so behind a solve it
is the one from before, unless one of the passes has asked for a search
(`EquationStore.solve_eq_leave`).

A solve may discard a pass that asks for a search: when the first one does, and the equations
mention stored variables, only the second one counts.  `EquationStore.interval_solve` says that this
is the only way in which a solve that does not ask for a search forgets the bounds that the user has
set.
-/

namespace Resolvent

namespace Outcome

/-- The pass leaves the roots of an equation to a search. -/
def Asks (P : Except SolveError Outcome) : Prop :=
  P.map status = .ok .requireApproximateSolution

instance (P : Except SolveError Outcome) : Decidable (Asks P) :=
  inferInstanceAs (Decidable (_ = _))

/-- The interval behind a pass. -/
def intervalBehind (i : Interval) (P : Except SolveError Outcome) : Interval :=
  if Asks P then {} else i

theorem asks_ok {P : Outcome} : Asks (.ok P) ↔ P.status = .requireApproximateSolution :=
  iff_of_eq (Except.ok.injEq ..)

theorem not_asks_error (x : SolveError) : ¬ Asks (.error x) := nofun

/-- What a pass leaves behind answers whether it asks for a search. -/
theorem asks_iff_behind {slots : Vector (Option Equation) maxVariables} {i : Interval}
    {footprint : Option Footprint} {A : Arena} {P : Except SolveError Outcome} :
    Asks P ↔ (behind slots i footprint A P).1 = .ok .requireApproximateSolution := by
  cases P with
  | error x => exact iff_of_false (not_asks_error x) nofun
  | ok P => exact Iff.rfl

/-- What a solve leaves behind answers whether the chosen outcome asks for a search. -/
theorem asks_iff_leave {slots : Vector (Option Equation) maxVariables} {i : Interval} {A : Arena}
    {P : Except SolveError Outcome} :
    Asks P ↔ (leave slots i A P).1 = .ok .requireApproximateSolution := by
  cases P with
  | error x => exact iff_of_false (not_asks_error x) nofun
  | ok P => exact Iff.rfl

theorem leave_interval (slots : Vector (Option Equation) maxVariables) (i : Interval) (A : Arena)
    (P : Except SolveError Outcome) : (leave slots i A P).2.1.interval = i := by
  cases P <;> rfl

theorem leave_slots (slots : Vector (Option Equation) maxVariables) (i : Interval) (A : Arena)
    (P : Except SolveError Outcome) : (leave slots i A P).2.1.slots = slots := by
  cases P <;> rfl

/-- Behind several passes the interval is the one from before, unless one asks for a search. -/
theorem foldl_intervalBehind (outcomes : List (Except SolveError Outcome)) (i : Interval) :
    outcomes.foldl intervalBehind i = if ∃ P ∈ outcomes, Asks P then {} else i := by
  induction outcomes generalizing i with
  | nil => exact (if_neg (by simp)).symm
  | cons P outcomes ih =>
    rw [List.foldl_cons, ih]
    unfold intervalBehind
    by_cases hP : Asks P
    · rw [if_pos hP, ite_self, if_pos ⟨P, List.mem_cons_self, hP⟩]
    · rw [if_neg hP]
      exact if_congr (by simp [hP]) rfl rfl

/-- The outcomes of the passes that a solve makes, in their order. -/
def made (Γ : Context Handle) (options : SolveOptions)
    (slots : Vector (Option Equation) maxVariables) (A : Arena) :
    List (Except SolveError Outcome) :=
  (passes (ofPass Γ options slots A .replaceAll)
    (ofPass Γ (options.afterPasses 1) slots A .functionsOnly)).mapIdx
      fun n mode => ofPass Γ (options.afterPasses n) slots A mode

section Made

variable {Γ : Context Handle} {options : SolveOptions}
  {slots : Vector (Option Equation) maxVariables} {A : Arena}

theorem first_mem_made : ofPass Γ options slots A .replaceAll ∈ made Γ options slots A := by
  have hfirst : ∀ modes : List Mode, ofPass Γ options slots A .replaceAll ∈
      (Mode.replaceAll :: modes).mapIdx
        fun n mode => ofPass Γ (options.afterPasses n) slots A mode := fun modes => by
    rw [List.mapIdx_cons, SolveOptions.afterPasses_zero]
    exact List.mem_cons_self
  unfold made passes
  split
  · exact hfirst _
  · split
    · exact hfirst _
    · split
      · exact hfirst _
      · split <;> exact hfirst _

/-- A pass behind the first asks for a search only if what the solve comes to does. -/
theorem asks_ofSolve_of_made {P : Except SolveError Outcome} (hmem : P ∈ made Γ options slots A)
    (hasks : Asks P) :
    Asks (ofPass Γ options slots A .replaceAll) ∨ Asks (ofSolve Γ options slots A) := by
  unfold ofSolve
  unfold made passes at hmem
  rcases hfirst : ofPass Γ options slots A .replaceAll with x | Q
  · simp_all
  rw [hfirst] at hmem
  dsimp only at hmem
  by_cases hfinal : Q.Final
  · simp_all
  rw [if_neg hfinal] at hmem
  rw [chosen_of_not_final hfinal]
  rcases hsecond : ofPass Γ (options.afterPasses 1) slots A .functionsOnly with x | R
  · simp_all only [List.mapIdx_cons, List.mapIdx_nil, SolveOptions.afterPasses_zero,
      List.mem_cons, List.not_mem_nil, or_false]
    rcases hmem with rfl | rfl
    · exact .inl hasks
    · exact absurd hasks (not_asks_error x)
  rw [hsecond] at hmem
  dsimp only [Except.bind] at hmem ⊢
  by_cases hbeats : Q.Beats R
  · -- a first pass is not better than one that asks for a search
    have hR : ¬ Asks (.ok R) := fun h => hbeats.2.2 (asks_ok.1 h)
    simp_all only [if_true, List.mapIdx_cons, List.mapIdx_nil, SolveOptions.afterPasses_zero,
      List.mem_cons, List.not_mem_nil, or_false]
    rcases hmem with rfl | rfl | rfl
    · exact .inl hasks
    · exact absurd hasks hR
    · exact .inr hasks
  · simp_all only [if_false, List.mapIdx_cons, List.mapIdx_nil, SolveOptions.afterPasses_zero,
      List.mem_cons, List.not_mem_nil, or_false]
    rcases hmem with rfl | rfl
    · exact .inl hasks
    · exact .inr hasks

end Made

end Outcome

namespace EquationStore

open Outcome (Asks intervalBehind)

variable {Γ : Context Handle} {options : SolveOptions}

/-- A pass that asks for a search leaves the standard interval, any other the one from before. -/
theorem attempt_interval (Γ : Context Handle) (options : SolveOptions) (r : Resolution)
    (s : EquationStore) {A B : Arena} (h : A.GrowsTo B) :
    (s.attempt Γ options A.checkpoint r B).2.1.interval = intervalBehind s.interval
      (Outcome.ofPass Γ (options.afterPasses r.before) s.slots A r.mode) := by
  have hasks : Asks (Outcome.ofPass Γ (options.afterPasses r.before) s.slots A r.mode) ↔
      (s.attempt Γ options A.checkpoint r B).1 = .ok .requireApproximateSolution := by
    obtain ⟨i, -, hattempt⟩ := attempt_eq Γ options r s h
    rw [hattempt]
    exact Outcome.asks_iff_behind
  unfold intervalBehind
  rw [if_congr hasks rfl rfl]
  unfold attempt
  rw [h.rollback]
  generalize options.afterPasses r.before = options
  have hfinds := solvePass_finds Γ options r.mode (s := s.resetResults) rfl A
  unfold Stage.Ends at hfinds
  have hok {a b : Status} : a = b ↔ (Except.ok a : Except SolveError Status) = .ok b :=
    (iff_of_eq (Except.ok.injEq ..)).symm
  -- there is a search to begin exactly if the pass ends with the status that asks for it
  rcases hrun : solvePass Γ options r.mode (s.resetResults, A) with ⟨(status | _) | status, t, C⟩ <;>
    rw [hrun] at hfinds
  · obtain ⟨⟨e, he⟩, -⟩ | ⟨status', hstatus, hagree, hinterval⟩ := hfinds
    · cases he
    · obtain hstatus | hstatus := hstatus <;> cases hstatus
      exact hinterval.trans (if_congr (hagree.status.symm.trans hok) rfl rfl)
  · obtain ⟨-, hinterval⟩ | ⟨status', hstatus, -⟩ := hfinds
    · exact hinterval
    · obtain hstatus | hstatus := hstatus <;> cases hstatus
  · obtain ⟨⟨e, he⟩, -⟩ | ⟨status', hstatus, hagree, hinterval⟩ := hfinds
    · cases he
    · obtain hstatus | hstatus := hstatus <;> cases hstatus
      exact hinterval.trans (if_congr (hagree.status.symm.trans hok) rfl rfl)

/-- The next resolution counts one pass more. -/
theorem before_next {s : EquationStore} {status : Status} {r next : Resolution}
    (h : s.next? status r = some next) : next.before = r.before + 1 := by
  unfold next? at h
  split at h <;> try split at h
  all_goals cases h <;> rfl

/-- Passes leave the interval of the last one that changes it. -/
theorem Passes.interval {r : Resolution} {s : EquationStore} {A B : Arena} {modes : List Mode}
    {y : Except SolveError Status × EquationStore × Arena} (hB : A.GrowsTo B)
    (h : Passes Γ options A.checkpoint r s B modes y) :
    y.2.1.interval = (modes.mapIdx fun n mode =>
      Outcome.ofPass Γ (options.afterPasses (r.before + n)) s.slots A mode).foldl
        intervalBehind s.interval := by
  induction h with
  | @fails r s s' B B' x h =>
    rw [List.mapIdx_singleton, List.foldl_cons, List.foldl_nil, Nat.add_zero,
      ← attempt_interval Γ options r s hB, h]
  | @last r s s' B B' status h =>
    rw [List.mapIdx_singleton, List.foldl_cons, List.foldl_nil, Nat.add_zero,
      ← attempt_interval Γ options r s hB, h]
  | @more r next s s' B B' status modes y h hnext hrest ih =>
    -- the next pass starts from the same equations, and in an arena with the same beginning
    obtain ⟨i, -, hattempt⟩ := attempt_eq Γ options r s hB
    rw [h] at hattempt
    rcases hP : Outcome.ofPass Γ (options.afterPasses r.before) s.slots A r.mode with x | P
    · rw [hP] at hattempt
      cases hattempt
    · rw [hP] at hattempt
      obtain ⟨-, rfl, rfl⟩ : status = P.status ∧ s' = _ ∧ B' = P.arena := by
        simpa [Outcome.behind] using hattempt
      have hrest := ih (grows_of_ofPass hP)
      have hinterval := attempt_interval Γ options r s hB
      rw [h] at hinterval
      rw [hrest, List.mapIdx_cons, List.foldl_cons, Nat.add_zero, ← hinterval, before_next hnext]
      simp only [Nat.add_assoc, Nat.add_comm 1]

/-- A solve leaves what the chosen outcome leaves, and the interval from before, unless one of its
passes asks for a search. -/
theorem solve_eq_leave (s : EquationStore) (Γ : Context Handle) (options : SolveOptions)
    (A : Arena) :
    s.solve Γ options A = Outcome.leave s.slots
      (if ∃ P ∈ Outcome.made Γ options s.slots (s.tidy Γ A).2, Asks P then {} else s.interval)
      (s.tidy Γ A).2 (Outcome.ofSolve Γ options s.slots (s.tidy Γ A).2) := by
  obtain ⟨i, -, hpasses⟩ := passes_chosen Γ options (s.tidy Γ A).1 (s.tidy Γ A).2
  have hinterval := hpasses.interval (.refl _)
  have hbehind : ∀ R, (Outcome.behind s.slots i none (s.tidy Γ A).2 R).2.1.interval = i := by
    rintro (_ | R) <;> rfl
  simp only [Resolution.before, Nat.zero_add] at hinterval
  obtain rfl := (hbehind _).symm.trans hinterval
  rw [solve, ← Outcome.foldl_intervalBehind]
  exact (congrArg (conclude (s.tidy Γ A).2.checkpoint) hpasses.resolve_eq).trans
    (Outcome.conclude_behind _ _ _ _)

/-- A solve that does not ask for a search in the end leaves the interval as it is, unless its first
pass asks for one: then the standard interval is left. -/
theorem interval_solve (s : EquationStore) (Γ : Context Handle) (options : SolveOptions) (A : Arena)
    (hanswer : (s.solve Γ options A).1 ≠ .ok .requireApproximateSolution) :
    (s.solve Γ options A).2.1.interval =
      if Asks (Outcome.ofPass Γ options s.slots (s.tidy Γ A).2 .replaceAll) then {}
      else s.interval := by
  rw [s.solve_eq_leave Γ options A, ne_eq, ← Outcome.asks_iff_leave] at hanswer
  rw [s.solve_eq_leave Γ options A, Outcome.leave_interval]
  refine if_congr ⟨?_, fun hasks => ⟨_, Outcome.first_mem_made, hasks⟩⟩ rfl rfl
  rintro ⟨P, hmem, hasks⟩
  exact (Outcome.asks_ofSolve_of_made hmem hasks).resolve_right hanswer

/-- The bounds that have been set are forgotten, although the solve does not ask for a search. -/
theorem interval_solve_fifthPower :
    (fifthPower.solve fifthPowerContext { simplifier := .saturation } fifthPowerArena).1 ≠
        .ok .requireApproximateSolution ∧
      (fifthPower.solve fifthPowerContext { simplifier := .saturation }
        fifthPowerArena).2.1.interval = {} ∧
      ({} : Interval) ≠ fifthPower.interval := by
  obtain ⟨P, hP, hstatus, -⟩ := exists_ofPass_fifthPower .replaceAll .saturation 0
  have htidy : (fifthPower.tidy fifthPowerContext fifthPowerArena).2 = fifthPowerArena := rfl
  have hanswer : (fifthPower.solve fifthPowerContext { simplifier := .saturation }
      fifthPowerArena).1 ≠ .ok .requireApproximateSolution := by
    rw [solve_fifthPower .saturation]
    exact nofun
  refine ⟨hanswer, ?_, fun h => ?_⟩
  · rw [interval_solve fifthPower fifthPowerContext _ fifthPowerArena hanswer, htidy, hP,
      if_pos (Outcome.asks_ok.2 hstatus)]
  · exact absurd (congrArg Interval.max h) (by decide)

end EquationStore

end Resolvent

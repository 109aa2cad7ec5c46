import Resolvent.Proofs.Expression.Room
import Resolvent.Proofs.Form.Inlining
import Resolvent.Proofs.Solve.SingleEquation

/-!
# Solving with more room

A solve that does not run out of nodes is meant to come to the same with a greater limit of nodes.
It does (`EquationStore.solve_of_hasRoom`), if in the first pass the canonical forms with variables
kept symbolic have room.  These forms are looked at only to find the predefined variables; where one
runs out of nodes, the classification goes on without them, and the solve may end as if the equations
mentioned no variable with a stored value.
-/

namespace Resolvent

/-! ### Canonical forms -/

namespace Build

/-- The computation is steady.  Errors of the expression are the same with more room. -/
abbrev CanonicalSteady {α : Type} (m : BuildT CanonicalError α) : Prop :=
  Resolvent.Steady Arena.Wider (fun e => ∃ x, e = .exhausted x) m

theorem expand_steady (Δ : Definitions) (mode : Mode) (e : Expression) :
    CanonicalSteady (Build.expand Δ mode e) := by
  intro A B hAB
  have hexpand : ExpandM.SteadyIn Arena.Wider (e.expand Δ mode) := Expression.expandAt_steady _ _ _
  unfold Build.expand
  rcases hA : e.expand Δ mode (A, {}) with ⟨r, A', met⟩
  rcases hB : e.expand Δ mode (B, {}) with ⟨r', B', met'⟩
  rcases (hexpand (A, {})).runs hA hB ⟨hAB, rfl⟩ with ⟨x, hx, rfl⟩ | ⟨rfl, hwider, hmet⟩
  · exact .inl ⟨x, hx, rfl⟩
  · obtain rfl : met = met' := hmet
    cases r <;> exact .inr ⟨rfl, hwider⟩

theorem replaceBy_steady (h : Handle) (placeholders : List Handle) (t : Term) :
    Steady (replaceBy h placeholders t) := by
  intro A B hAB
  unfold replaceBy
  rcases hA : t.build placeholders A with ⟨r, A'⟩
  rcases hB : t.build placeholders B with ⟨r', B'⟩
  rcases (t.build_steady placeholders A).runs hA hB hAB with
    ⟨_, ⟨x, rfl⟩, rfl⟩ | ⟨rfl, hwider⟩
  · exact .inl ⟨x, trivial, rfl⟩
  · rcases r with (_ | _) | _ <;> exact .inr ⟨rfl, hwider⟩

theorem simplifyFunctions_steady (simplify : Term → Term) (h : Handle) :
    Steady (simplifyFunctions simplify h) := by
  intro A
  refine .get_bind (fun B hAB => ?_) ?_
  · dsimp only
    rw [hAB.expression_eq, hAB.term_eq]
  · split
    · dsimp only
      split
      · exact .pure _
      · exact replaceBy_steady _ _ _ A
    · exact .pure _

theorem canonical_steady (c : Canonizer) (h : Handle) : CanonicalSteady (canonical c h) := by
  intro A
  refine .get_bind (fun B hAB => ?_) ?_
  · dsimp only
    rw [hAB.expression_eq, hAB.definitions_eq]
  · refine (expand_steady _ _ _ A).bind fun expanded A' _ => ?_
    refine SteadyAt.bind ?_ fun simplified A'' _ => ?_
    · exact (simplifyFunctions_steady _ _ A').adapt fun x _ => ⟨x, rfl⟩
    · refine .get_bind (fun B hAB => ?_) ?_
      · rw [hAB.expression_eq]
      · exact (SteadyAt.ofExcept _).bind fun form _ _ => .pure _

end Build

/-! ### Stages -/

namespace Stage

variable {σ τ ε α β : Type} {s : σ} {A : Arena}

/-- Run from there, the stage ends without room, or it does the same where there is more room. -/
abbrev SteadyAt (m : Stage σ α) (x : σ × Arena) : Prop :=
  Resolvent.SteadyAt (fun x y : σ × Arena => x.1 = y.1 ∧ x.2.Wider y.2)
    (· = .error .outOfMemory) m x

theorem look_steady (f : σ → τ) (x : σ × Arena) : SteadyAt (look f) x := by
  rintro y ⟨hs, hwider⟩
  exact .inr ⟨congrArg (Except.ok ∘ f) hs, hs, hwider⟩

theorem update_steady (f : σ → σ) (x : σ × Arena) : SteadyAt (update f) x := by
  rintro y ⟨hs, hwider⟩
  exact .inr ⟨rfl, congrArg f hs, hwider⟩

theorem halt_steady (h : Halt) (x : σ × Arena) : SteadyAt (halt h : Stage σ α) x :=
  fun _ hxy => .inr ⟨rfl, hxy⟩

theorem arena_bind_steady {f : Arena → Stage σ α} (hf : ∀ B, A.Wider B → f B = f A)
    (hx : SteadyAt (f A) (s, A)) : SteadyAt (arena >>= f) (s, A) := by
  rintro ⟨_, B⟩ ⟨rfl, hAB⟩
  rw [bind_run, bind_run]
  dsimp only [arena]
  rw [hf B hAB]
  exact hx (s, B) ⟨rfl, hAB⟩

theorem build_steady {m : Build α} (hm : Build.Steady m) (x : σ × Arena) :
    SteadyAt (Stage.build m) x := by
  rintro ⟨_, B⟩ ⟨rfl, hAB⟩
  unfold Stage.build
  dsimp only
  rcases hA : m x.2 with ⟨r, A'⟩
  rcases hB : m B with ⟨r', B'⟩
  rcases (hm x.2).runs hA hB hAB with ⟨e, -, rfl⟩ | ⟨rfl, hwider⟩
  · exact .inl ⟨_, rfl, rfl⟩
  · cases r <;> exact .inr ⟨rfl, rfl, hwider⟩

theorem build_eq_ok {m : Build α} {x : σ × Arena} {a : α}
    (h : Stage.build m (s, A) = (.ok a, x)) : ∃ B, m A = (.ok a, B) ∧ x = (s, B) := by
  unfold Stage.build at h
  dsimp only at h
  rcases hrun : m A with ⟨e | b, B⟩
  · rw [hrun] at h
    cases h
  · rw [hrun] at h
    cases h
    exact ⟨B, rfl, rfl⟩

/-- An answer that says that the arena is full has to end the stage. -/
theorem settle_bind_steady {full : ε → Prop} {m : BuildT ε α}
    (hm : Resolvent.Steady Arena.Wider full m) {f : Except ε α → Stage σ β}
    (hfull : ∀ e, full e → (m A).1 = .error e →
      (f (.error e) (s, (m A).2)).1 = .error (.error .outOfMemory))
    (hf : SteadyAt (f (m A).1) (s, (m A).2)) : SteadyAt (settle m >>= f) (s, A) := by
  rintro ⟨_, B⟩ ⟨rfl, hAB⟩
  rw [bind_run, bind_run]
  dsimp only [settle]
  rcases hA : m A with ⟨r, A'⟩
  rcases hB : m B with ⟨r', B'⟩
  rw [hA] at hfull hf
  rcases (hm A).runs hA hB hAB with ⟨e, he, rfl⟩ | ⟨rfl, hwider⟩
  · exact .inl ⟨_, rfl, hfull e he rfl⟩
  · exact hf (s, B') ⟨rfl, hwider⟩

theorem onPart_steady {get : σ → τ} {put : τ → σ → σ} {m : Stage τ α} {x : σ × Arena}
    (hm : SteadyAt m (get x.1, x.2)) : SteadyAt (onPart get put m) x := by
  rintro ⟨_, B⟩ ⟨rfl, hAB⟩
  rcases hm (get x.1, B) ⟨rfl, hAB⟩ with ⟨e, he, heq⟩ | ⟨heq, ht, hwider⟩
  · exact .inl ⟨e, he, heq⟩
  · exact .inr ⟨heq, congrArg (put · x.1) ht, hwider⟩

end Stage

/-! ### Classification -/

namespace Catalog

open Stage

theorem noteForm_steady (c : Canonical) (x : Catalog × Arena) : Stage.SteadyAt (noteForm c) x := by
  refine (look_steady _ x).bind fun known y _ => (update_steady _ y).bind fun _ z _ => ?_
  split
  · exact halt_steady _ z
  · exact update_steady _ z

theorem noteResult_steady (r : Except CanonicalError Canonical) (x : Catalog × Arena) :
    Stage.SteadyAt (noteResult r) x := by
  unfold noteResult
  split
  · exact noteForm_steady _ x
  all_goals exact halt_steady _ x

/-- An equation whose canonical form has no room ends the solve. -/
theorem settle_noteResult_steady (c : Canonizer) (h : Handle) (x : Catalog × Arena) :
    Stage.SteadyAt (settle (Build.canonical c h) >>= noteResult) x := by
  refine settle_bind_steady (Build.canonical_steady c h) ?_ (noteResult_steady _ _)
  rintro _ ⟨e, rfl⟩ -
  rfl

/-- The canonical form with variables kept symbolic has room, if it is asked for. -/
def HasRoomFor (c : Canonizer) (h : Handle) (x : Catalog × Arena) : Prop :=
  x.1.predefined.length < maxVariables →
    ∀ e, (Build.canonical { c with mode := .functionsOnly } h x.2).1 ≠ .error (.exhausted e)

/-- What the symbolic form says of an equation is the same with more room, unless it is passed over
that there is none. -/
theorem noteEquation_steady {c : Canonizer} {h : Handle} {x : Catalog × Arena}
    (hroom : c.mode = .replaceAll → HasRoomFor c h x) : Stage.SteadyAt (noteEquation c h) x := by
  refine (look_steady _ x).bind fun known y hy => ?_
  obtain ⟨rfl, rfl⟩ : x.1.predefined = known ∧ x = y := by
    cases hy
    exact ⟨rfl, rfl⟩
  by_cases hknown : x.1.predefined.length < maxVariables
  · rw [if_pos hknown]
    refine settle_bind_steady (Build.canonical_steady _ h) ?_ ?_
    · rintro _ ⟨e, rfl⟩ he
      rcases hmode : c.mode with - | -
      · exact absurd he (hroom hmode hknown e)
      · rfl
    · refine arena_bind_steady (fun B hwider => ?_) ?_
      · obtain ⟨limit, -, rfl⟩ := hwider
        rfl
      · refine (update_steady _ _).bind fun _ z _ => ?_
        split
        · exact noteResult_steady _ z
        · exact settle_noteResult_steady c.later h z
  · rw [if_neg hknown]
    exact settle_noteResult_steady c h x

/-- The symbolic forms of the equations have room, as far as they are asked for. -/
def HasRoom (c : Canonizer) : List Handle → Catalog × Arena → Prop
  | [], _ => True
  | h :: hs, x =>
    HasRoomFor c h x ∧ ∀ y, noteEquation c h x = (.ok (), y) → HasRoom c.later.later hs y

theorem noteAll_steady {c : Canonizer} {hs : List Handle} {x : Catalog × Arena}
    (hroom : c.mode = .replaceAll → HasRoom c hs x) : Stage.SteadyAt (noteAll c hs) x := by
  induction hs generalizing c x with
  | nil => exact .pure _
  | cons h hs ih =>
    refine (noteEquation_steady fun hmode => (hroom hmode).1).bind fun _ y hy => ?_
    exact ih fun hmode => (hroom hmode).2 y hy

theorem classify_steady {c : Canonizer} {hs : List Handle} {k : Catalog} {A : Arena}
    (hroom : c.mode = .replaceAll → HasRoom c hs ({}, A)) :
    Stage.SteadyAt (classify c hs) (k, A) := by
  refine (update_steady _ _).bind fun _ y hy => ?_
  cases hy
  exact noteAll_steady hroom

end Catalog

namespace Solution

open Stage

theorem present_steady (p : Preferences) (exam : ExamMode) (status : Status) (answer : Answer)
    (x : List Solution × Arena) : Stage.SteadyAt (present p exam status answer) x := by
  refine (build_steady (Build.store_steady _) x).bind fun exact y _ => ?_
  refine (build_steady (Build.store_steady _) y).bind fun approximate z _ => ?_
  refine arena_bind_steady (fun B hwider => ?_) ?_
  · have hofAnswer : ∀ r, ofAnswer B exam answer r exact approximate =
        ofAnswer z.2 exam answer r exact approximate := by
      intro r
      unfold ofAnswer
      rw [hwider.text_eq, hwider.text_eq, hwider.expression_eq]
    simp only [hofAnswer]
  · split
    · exact .pure _
    · exact .pure _
    · exact (update_steady _ z).bind fun _ _ _ => .pure _

theorem presentAll_steady (p : Preferences) (exam : ExamMode) (status : Status)
    (answers : List Answer) (x : List Solution × Arena) :
    Stage.SteadyAt (presentAll p exam status answers) x := by
  induction answers generalizing status x with
  | nil => exact .pure _
  | cons answer answers ih =>
    exact (present_steady p exam status answer x).bind fun status y _ => ih status y

end Solution

/-! ### Passes -/

namespace EquationStore

open Stage

variable {Γ : Context Handle} {options : SolveOptions} {mode : Mode} {s : EquationStore}
  {A B : Arena}

theorem listAnswers_steady (p : Preferences) (answers : List Answer) (x : EquationStore × Arena) :
    Stage.SteadyAt (listAnswers options p answers) x := by
  refine (onPart_steady (Solution.presentAll_steady _ _ _ _ _)).bind fun status y _ => ?_
  refine (update_steady _ y).bind fun _ z _ => (update_steady _ z).bind fun _ _ _ => .pure _

theorem prepareSearch_steady (e : SearchEquation) (x : EquationStore × Arena) :
    Stage.SteadyAt (prepareSearch e) x := by
  refine (update_steady _ x).bind fun _ y _ => (update_steady _ y).bind fun _ z _ => ?_
  exact (update_steady _ z).bind fun _ _ _ => .pure _

theorem solveEquation_steady (p : Preferences) (hs : List Handle) (x : EquationStore × Arena) :
    Stage.SteadyAt (solveEquation options p mode hs) x := by
  refine (look_steady _ x).bind fun k y _ => ?_
  split
  · split
    · exact (update_steady _ y).bind fun _ z _ => listAnswers_steady _ _ z
    · exact prepareSearch_steady _ y
  · exact halt_steady _ y

theorem solveCatalog_steady (p : Preferences) (hs : List Handle) (x : EquationStore × Arena) :
    Stage.SteadyAt (solveCatalog options p mode hs) x := by
  refine (look_steady _ x).bind fun k y _ => ?_
  split
  · exact listAnswers_steady _ _ y
  · exact .pure _
  · exact (update_steady _ y).bind fun _ _ _ => .pure _
  · exact solveEquation_steady _ _ y

theorem solveForms_steady {hs : List Handle}
    (hroom : mode = .replaceAll → Catalog.HasRoom (options.canonizer Γ mode
      (options.preferences.forEquations (Γ.definitions A) mode (hs.map A.expression))) hs ({}, A)) :
    Stage.SteadyAt (solveForms Γ options mode hs) (s, A) := by
  refine arena_bind_steady (fun B hwider => ?_) ?_
  · rw [hwider.definitions_eq, hwider.expression_eq]
  · refine SteadyAt.bind ?_ fun _ y _ => solveCatalog_steady _ _ y
    exact onPart_steady (Catalog.classify_steady hroom)

/-- In a first pass over the stored equations, whenever it is made, the canonical forms with
variables kept symbolic have room. -/
def HasRoom (s : EquationStore) (Γ : Context Handle) (options : SolveOptions) (A : Arena) : Prop :=
  ∀ n hs B, s.equations.mapM Equation.standardForm A = (.ok hs, B) →
    Catalog.HasRoom ((options.afterPasses n).canonizer Γ .replaceAll
      (options.preferences.forEquations (Γ.definitions B) .replaceAll (hs.map B.expression)))
      hs ({}, B)

theorem solvePass_steady (n : Nat) (hroom : mode = .replaceAll → s.HasRoom Γ options A) :
    Stage.SteadyAt (solvePass Γ (options.afterPasses n) mode) (s, A) := by
  refine (update_steady _ _).bind fun _ y hy => (look_steady _ y).bind fun es z hz => ?_
  cases hy
  cases hz
  refine (build_steady ?_ _).bind fun hs x hx => ?_
  · exact Steady.mapM (fun e => Build.difference_steady _ _) _
  · obtain ⟨B, hB, rfl⟩ := build_eq_ok hx
    refine solveForms_steady fun hmode => ?_
    obtain rfl : mode = .replaceAll := hmode
    exact hroom rfl n hs B hB

/-! ### Outcomes -/

/-- A pass that has an outcome has the same with more room. -/
theorem ofPass_wider {slots : Vector (Option Equation) maxVariables} {P : Outcome} (n : Nat)
    (hAB : A.Wider B) (hroom : mode = .replaceAll → HasRoom { slots } Γ options A)
    (hP : Outcome.ofPass Γ (options.afterPasses n) slots A mode = .ok P) :
    ∃ C, P.arena.Wider C ∧
      Outcome.ofPass Γ (options.afterPasses n) slots B mode = .ok { P with arena := C } := by
  have hsteady : Stage.SteadyAt (solvePass Γ (options.afterPasses n) mode)
      ({ slots, results := {} }, A) := solvePass_steady n hroom
  unfold Outcome.ofPass at hP ⊢
  rcases hA : solvePass Γ (options.afterPasses n) mode ({ slots, results := {} }, A) with ⟨r, t, A'⟩
  rcases hB : solvePass Γ (options.afterPasses n) mode ({ slots, results := {} }, B) with
    ⟨r', t', B'⟩
  rw [hA] at hP
  rcases hsteady.runs hA hB ⟨rfl, hAB⟩ with ⟨e, rfl, rfl⟩ | ⟨rfl, ht, hwider⟩
  · cases hP
  · obtain rfl : t = t' := ht
    rcases r with (status | _) | status
    · obtain rfl := Except.ok.inj hP
      exact ⟨B', hwider, rfl⟩
    · cases hP
    · obtain rfl := Except.ok.inj hP
      exact ⟨B', hwider, rfl⟩

/-- What a solve comes to it comes to with more room too. -/
theorem ofSolve_wider {slots : Vector (Option Equation) maxVariables} {R : Outcome}
    (hAB : A.Wider B) (hroom : HasRoom { slots } Γ options A)
    (hR : Outcome.ofSolve Γ options slots A = .ok R) :
    ∃ C, R.arena.Wider C ∧ Outcome.ofSolve Γ options slots B = .ok { R with arena := C } := by
  unfold Outcome.ofSolve at hR ⊢
  rcases hP : Outcome.ofPass Γ options slots A .replaceAll with x | P
  · rw [hP] at hR
    cases hR
  rw [hP] at hR
  obtain ⟨C, hC, hP'⟩ := ofPass_wider 0 hAB (fun _ => hroom) (options.afterPasses_zero ▸ hP)
  rw [options.afterPasses_zero] at hP'
  have hfinal : Outcome.Final { P with arena := C } ↔ P.Final := Iff.rfl
  rw [hP']
  by_cases hPfinal : P.Final
  · rw [Outcome.chosen_of_final hPfinal] at hR
    obtain rfl := Except.ok.inj hR
    exact ⟨C, hC, Outcome.chosen_of_final (hfinal.2 hPfinal)⟩
  rw [Outcome.chosen_of_not_final hPfinal] at hR
  rw [Outcome.chosen_of_not_final fun h => hPfinal (hfinal.1 h)]
  rcases hQ : Outcome.ofPass Γ (options.afterPasses 1) slots A .functionsOnly with x | Q
  · rw [hQ] at hR
    cases hR
  obtain ⟨D, hD, hQ'⟩ := ofPass_wider 1 hAB (fun hmode => by cases hmode) hQ
  have hbeats : Outcome.Beats { P with arena := C } { Q with arena := D } ↔ P.Beats Q := Iff.rfl
  rw [hQ] at hR
  rw [hQ']
  dsimp only [Except.bind] at hR ⊢
  by_cases hPQ : P.Beats Q
  · rw [if_pos hPQ] at hR
    rw [if_pos (hbeats.2 hPQ)]
    exact ofPass_wider 2 hAB (fun _ => hroom) hR
  · rw [if_neg hPQ] at hR
    rw [if_neg fun h => hPQ (hbeats.1 h)]
    obtain rfl := Except.ok.inj hR
    exact ⟨D, hD, rfl⟩

theorem limit_release (s : EquationStore) (Γ : Context Handle) (A : Arena) :
    (s.release Γ A).limit = A.limit := by
  unfold release
  split
  · split <;> rfl
  · rfl

theorem release_wider (s : EquationStore) (Γ : Context Handle) (hAB : A.Wider B) :
    (s.release Γ A).Wider (s.release Γ B) := by
  obtain ⟨limit, hlimit, rfl⟩ := hAB
  unfold release
  split
  · have hsize : Arena.size { A with limit } = A.size := rfl
    rw [hsize]
    split
    · exact ⟨limit, hlimit, rfl⟩
    · exact ⟨limit, hlimit, rfl⟩
  · exact ⟨limit, hlimit, rfl⟩

/-- A solve that does not run out of nodes comes to the same with more room, if in its first pass the
forms with variables kept symbolic have room. -/
theorem solve_of_hasRoom {status : Status} {limit : Nat} (hlimit : A.limit ≤ limit)
    (hroom : s.HasRoom Γ options (s.tidy Γ A).2) (h : (s.solve Γ options A).1 = .ok status) :
    let x := s.solve Γ options A
    let y := s.solve Γ options { A with limit }
    y.1 = .ok status ∧ y.2.1.catalog = x.2.1.catalog ∧ y.2.1.results = x.2.1.results ∧
      y.2.2 = { x.2.2 with limit } := by
  intro x y
  have hwider : (s.tidy Γ A).2.Wider (s.tidy Γ { A with limit }).2 :=
    s.release_wider Γ ⟨limit, hlimit, rfl⟩
  obtain ⟨i, -, hx⟩ := s.exists_solve_eq_leave Γ options A
  obtain ⟨j, -, hy⟩ := s.exists_solve_eq_leave Γ options { A with limit }
  rw [hx] at h
  rw [show x = _ from hx, show y = _ from hy]
  rcases hR : Outcome.ofSolve Γ options s.slots (s.tidy Γ A).2 with e | R
  · rw [hR] at h
    cases h
  · rw [hR] at h
    obtain ⟨C, ⟨limit', -, rfl⟩, hR'⟩ := ofSolve_wider hwider hroom hR
    rw [hR']
    refine ⟨h, rfl, rfl, ?_⟩
    -- no pass changes the limit
    obtain ⟨n, mode, hmode⟩ := exists_mode_of_ofSolve hR'
    have hlimit' : limit' = (s.tidy Γ { A with limit }).2.limit := (grows_of_ofPass hmode).limit_eq
    have htidy : (s.tidy Γ { A with limit }).2.limit = limit := s.limit_release Γ _
    rw [hlimit'.trans htidy]
    rfl

/-- Nothing has to be stored for the symbolic form of `x⁵ - a`. -/
theorem hasRoom_fifthPower (simplifier : Simplifier) :
    fifthPower.HasRoom fifthPowerContext { simplifier } fifthPowerArena := by
  intro n hs B hrun
  obtain ⟨rfl, rfl⟩ : hs = [⟨5⟩] ∧ B = fifthPowerArena := by
    cases hrun.symm.trans (mapM_standardForm_singleton standardForm_fifthPower)
    exact ⟨rfl, rfl⟩
  refine ⟨fun _ e he => ?_, fun _ _ => trivial⟩
  have hcanonical := Build.canonical_fifthPowerArena .functionsOnly simplifier
    (({ simplifier } : SolveOptions).afterPasses n).moment
  cases he.symm.trans (congrArg Prod.fst hcanonical)

/-- The equation `x⁵ = a` with the definition `a = 1`, whose symbolic form is chosen in the end. -/
theorem solve_of_hasRoom_fifthPower :
    (fifthPowerArena.limit ≤ 200 ∧
      fifthPower.HasRoom fifthPowerContext { simplifier := .saturation }
        (fifthPower.tidy fifthPowerContext fifthPowerArena).2 ∧
      (fifthPower.solve fifthPowerContext { simplifier := .saturation } fifthPowerArena).1 =
        .ok .nonLinearSystem) ∧
    (fifthPower.solve fifthPowerContext { simplifier := .saturation }
      { fifthPowerArena with limit := 200 }).1 = .ok .nonLinearSystem := by
  have hlimit : fifthPowerArena.limit ≤ 200 := by decide
  have hroom : fifthPower.HasRoom fifthPowerContext { simplifier := .saturation }
      (fifthPower.tidy fifthPowerContext fifthPowerArena).2 := hasRoom_fifthPower .saturation
  have hsolve := solve_fifthPower .saturation
  have hsame := solve_of_hasRoom hlimit hroom hsolve
  exact ⟨⟨hlimit, hroom, hsolve⟩, hsame.1⟩

end EquationStore

/-! ### A function with a stored variable as its value -/

/-- The nodes of `0 - 0` and of `f(0) - 0`, and the value `a` of `f`. -/
def calledArena (limit : Nat) : Arena := { Arena.ofNodes ["a", "f", "t"]
  [.integer 0, .opposite ⟨0⟩, .sum [⟨0⟩, ⟨1⟩], .symbol 0, .call 1 ⟨0⟩, .sum [⟨4⟩, ⟨1⟩]] with limit }

/-- The definitions `a = 0` and `f(t) = a`. -/
def calledContext : Context Handle :=
  (({} : Context Handle).define "a" (.variable ⟨0⟩)).define "f" (.function "t" ⟨3⟩)

namespace Build

variable {limit : Nat} {n : Node} {h : Handle} {simplifier : Simplifier} {moment : Nat}

theorem wellFormed_calledArena (limit : Nat) : (calledArena limit).WellFormed := by
  have h : (Arena.ofNodes ["a", "f", "t"] [.integer 0, .opposite ⟨0⟩, .sum [⟨0⟩, ⟨1⟩], .symbol 0,
    .call 1 ⟨0⟩, .sum [⟨4⟩, ⟨1⟩]]).WellFormed := .ofNodes (by decide) (by decide) (by decide)
  exact ⟨h.operand_lt, h.named, h.node_index, h.index_node⟩

theorem intern_calledArena (hn : (calledArena limit).node? h = some n) :
    intern n (calledArena limit) = (.ok h, calledArena limit) :=
  intern_of_node? (wellFormed_calledArena limit) hn

/-- There is no node of `a - 0`. -/
theorem index_calledArena : (calledArena limit).index[Node.sum [⟨3⟩, ⟨1⟩]]? = none := by
  rcases hindex : (calledArena limit).index[Node.sum [⟨3⟩, ⟨1⟩]]? with - | h
  · rfl
  · have hnode : (calledArena limit).node? h = some (.sum [⟨3⟩, ⟨1⟩]) :=
      (wellFormed_calledArena limit).node_index _ _ hindex
    have hmem : Node.sum [⟨3⟩, ⟨1⟩] ∈ [.integer 0, .opposite ⟨0⟩, .sum [⟨0⟩, ⟨1⟩], .symbol 0,
        .call 1 ⟨0⟩, .sum [⟨4⟩, ⟨1⟩]] := by
      refine List.mem_of_getElem? (i := h.index) ?_
      simpa [Arena.node?, calledArena, Arena.ofNodes] using hnode
    exact absurd hmem (by decide)

theorem function?_calledContext : (calledContext.definitions (calledArena limit)).function? 1 =
    some (some 2, .symbol 0) := by
  have ht : (calledArena limit).symbolId? "t" = some 2 := Symbols.id?_of_name? (by decide) rfl
  exact congrArg (fun parameter => some (parameter, _)) ht

theorem dependOn_calledArena (s : Encounters) :
    ExpandM.dependOn ⟨0⟩ (calledArena limit, s) = (.ok (), (calledArena limit, s)) := rfl

theorem zero_calledArena :
    intern (.integer 0) (calledArena limit) = (.ok ⟨0⟩, calledArena limit) :=
  intern_calledArena rfl

theorem opposite_calledArena : opposite ⟨0⟩ (calledArena limit) = (.ok ⟨1⟩, calledArena limit) :=
  intern_calledArena rfl

theorem difference_calledArena :
    intern (.sum [⟨0⟩, ⟨1⟩]) (calledArena limit) = (.ok ⟨2⟩, calledArena limit) :=
  intern_calledArena rfl

section Runs

open Expression

attribute [local simp] Build.expand expand_eq expandAt_succ expandWith pure_run throw_run
  expandAllWith expandSymbol expandCall ExpandM.build bind_run Build.integer sum_pair meet_run
  dependOn_calledArena function?_calledContext zero_calledArena opposite_calledArena
  difference_calledArena List.lookup_cons List.lookup_nil

theorem expand_calledArena_replaceAll :
    Build.expand (calledContext.definitions (calledArena limit)) .replaceAll
      (.sum [.call 1 (.integer 0), .opposite (.integer 0)]) (calledArena limit) =
      (.ok (⟨2⟩, {}), calledArena limit) := by
  have ha : (calledContext.definitions (calledArena limit)).value? 0 = some (.integer 0) := rfl
  simp [-bind_pure_comp, ha]

/-- While variables stay symbolic, the node of `a - 0` has to be stored. -/
theorem expand_calledArena_functionsOnly :
    Build.expand (calledContext.definitions (calledArena limit)) .functionsOnly
      (.sum [.call 1 (.integer 0), .opposite (.integer 0)]) (calledArena limit) =
      match intern (.sum [⟨3⟩, ⟨1⟩]) (calledArena limit) with
      | (.ok h, A) => (.ok (h, { met := [0] }), A)
      | (.error e, A) => (.error (.exhausted e), A) := by
  have ha : intern (.symbol 0) (calledArena limit) = (.ok ⟨3⟩, calledArena limit) :=
    intern_calledArena rfl
  rcases hrun : intern (.sum [⟨3⟩, ⟨1⟩]) (calledArena limit) with ⟨e | h, A⟩
  · simp [-bind_pure_comp, ha, hrun]
  · simp [-bind_pure_comp, ha, hrun]

end Runs

/-- Where it expands to `0 - 0`, an expression has the form zero. -/
theorem canonical_calledArena_of_expand {mode : Mode}
    (hexpand : Build.expand (calledContext.definitions (calledArena limit)) mode
      ((calledArena limit).expression h) (calledArena limit) = (.ok (⟨2⟩, {}), calledArena limit)) :
    canonical ⟨calledContext, mode, {}, simplifier, moment⟩ h (calledArena limit) =
      (.ok ⟨Form.zero, []⟩, calledArena limit) := by
  have hform : (Expression.sum [.integer 0, .opposite (.integer 0)]).form {} = .ok Form.zero := by
    decide +kernel
  exact canonical_of_plain ⟨calledContext, mode, {}, simplifier, moment⟩ hexpand rfl
    (congrArg (Except.map _) hform)

theorem canonical_calledArena_call :
    canonical ⟨calledContext, .replaceAll, {}, simplifier, moment⟩ ⟨5⟩ (calledArena limit) =
      (.ok ⟨Form.zero, []⟩, calledArena limit) :=
  canonical_calledArena_of_expand expand_calledArena_replaceAll

/-- Without room for `a - 0` there is no symbolic form. -/
theorem canonical_calledArena_call_error :
    canonical ⟨calledContext, .functionsOnly, {}, simplifier, moment⟩ ⟨5⟩ (calledArena 6) =
      (.error (.exhausted ⟨6⟩), calledArena 6) := by
  have hintern : intern (.sum [⟨3⟩, ⟨1⟩]) (calledArena 6) = (.error ⟨6⟩, calledArena 6) := by
    rw [intern_run, index_calledArena]
    rfl
  refine canonical_of_expand_error ⟨calledContext, .functionsOnly, {}, simplifier, moment⟩ ?_
  exact expand_calledArena_functionsOnly.trans (by rw [hintern])

/-- With room for it, the symbolic form of `f(0) - 0` mentions `a`. -/
theorem canonical_calledArena_call_ok (simplifier : Simplifier) (moment : Nat) : ∃ r B,
    canonical ⟨calledContext, .functionsOnly, {}, simplifier, moment⟩ ⟨5⟩ (calledArena 100) =
      (r, B) ∧
      (({} : Catalog).notePredefined calledContext B r).predefined = [0] := by
  let B : Arena := { calledArena 100 with
    nodes := (calledArena 100).nodes.push (.sum [⟨3⟩, ⟨1⟩])
    index := (calledArena 100).index.insert (.sum [⟨3⟩, ⟨1⟩]) ⟨6⟩ }
  have hintern : intern (.sum [⟨3⟩, ⟨1⟩]) (calledArena 100) = (.ok ⟨6⟩, B) := by
    rw [intern_run, index_calledArena]
    rfl
  have hexpand : Build.expand (calledContext.definitions (calledArena 100)) .functionsOnly
      ((calledArena 100).expression ⟨5⟩) (calledArena 100) = (.ok (⟨6⟩, { met := [0] }), B) :=
    expand_calledArena_functionsOnly.trans (by rw [hintern])
  have hsymbols : ((B.expression ⟨6⟩).form {}).map (fun f => [0].filter f.mentions) = .ok [0] := by
    change ((Expression.sum [.symbol 0, .opposite (.integer 0)]).form {}).map _ = _
    decide +kernel
  obtain ⟨f, hf, hmentions⟩ := Except.map_eq_ok_iff.1 hsymbols
  have hcanonical :=
    canonical_of_plain ⟨calledContext, .functionsOnly, {}, simplifier, moment⟩ hexpand rfl rfl
  have hmet : [0].filter (fun s => f.mentions s || ([] : List Nat).contains s) = [0] := by
    simpa using hmentions
  refine ⟨.ok ⟨f, [0]⟩, B, hcanonical.trans ?_, rfl⟩
  dsimp only
  rw [hf]
  exact congrArg (fun symbols => (Except.ok (Canonical.mk f symbols), B)) hmet

end Build

namespace EquationStore

theorem standardForm_calledArena {limit : Nat} :
    Equation.standardForm ⟨⟨4⟩, ⟨0⟩⟩ (calledArena limit) = (.ok ⟨5⟩, calledArena limit) := by
  unfold Equation.standardForm Build.difference
  rw [bind_run, Build.opposite_calledArena]
  exact Build.intern_calledArena rfl

/-- The equation does not need other preferences. -/
theorem forEquations_calledArena {limit : Nat} (mode : Mode) :
    ({} : Preferences).forEquations (calledContext.definitions (calledArena limit)) mode
      [(calledArena limit).expression ⟨5⟩] = {} := by
  cases mode <;> rfl

/-- The equation `f(0) = 0`. -/
def calledIsZero : EquationStore := single ⟨⟨4⟩, ⟨0⟩⟩

/-- With six nodes there is no symbolic form, so that no stored variable is found. -/
theorem solve_calledArena_few (simplifier : Simplifier) :
    (calledIsZero.solve calledContext { simplifier } (calledArena 6)).1 = .ok .noError ∧
      (calledIsZero.solve calledContext { simplifier }
        (calledArena 6)).2.1.catalog.predefined = [] :=
  solve_of_zero (tidy_single _ _ _) (equations_single _) standardForm_calledArena
    (forEquations_calledArena .replaceAll) Build.canonical_calledArena_call_error rfl nofun
    Build.canonical_calledArena_call

/-- With room for `a - 0`, every pass finds the stored variable. -/
theorem predefined_calledArena {options : SolveOptions} (hp : options.preferences = {})
    {R : Outcome}
    (hR : Outcome.ofSolve calledContext options calledIsZero.slots (calledArena 100) = .ok R) :
    R.catalog.predefined = [0] := by
  obtain ⟨n, mode, hmode⟩ := exists_mode_of_ofSolve hR
  obtain ⟨r, B, hsymbolic, hfound⟩ := Build.canonical_calledArena_call_ok
    options.simplifier (options.afterPasses n).moment
  have hequations : equations { slots := calledIsZero.slots } = [⟨⟨4⟩, ⟨0⟩⟩] := rfl
  have hforEquations : (options.afterPasses n).preferences.forEquations
      (calledContext.definitions (calledArena 100)) mode [(calledArena 100).expression ⟨5⟩] = {} :=
    (congrArg (Preferences.forEquations · _ _ _) hp).trans (forEquations_calledArena mode)
  exact (predefined_of_ofPass hequations standardForm_calledArena hforEquations hsymbolic
    hmode).trans hfound

/-- With six nodes, `a - 0` has no room, and the solve of `f(0) = 0` does not find that the value of
`f` is that of the variable `a`.  With more, it does. -/
theorem solve_calledArena_ne :
    (calledIsZero.solve calledContext { simplifier := .saturation } (calledArena 6)).1 =
      .ok .noError ∧
    ¬ ((calledIsZero.solve calledContext { simplifier := .saturation } (calledArena 100)).1 =
        .ok .noError ∧
      (calledIsZero.solve calledContext { simplifier := .saturation }
        (calledArena 100)).2.1.catalog.predefined =
        (calledIsZero.solve calledContext { simplifier := .saturation }
          (calledArena 6)).2.1.catalog.predefined) := by
  refine ⟨(solve_calledArena_few .saturation).1, ?_⟩
  rintro ⟨hstatus, hsame⟩
  obtain ⟨i, -, hsolve⟩ := calledIsZero.exists_solve_eq_leave calledContext
    { simplifier := .saturation } (calledArena 100)
  have htidy : (calledIsZero.tidy calledContext (calledArena 100)).2 = calledArena 100 :=
    tidy_single _ _ _
  rw [htidy] at hsolve
  rw [(solve_calledArena_few .saturation).2, hsolve] at hsame
  rw [hsolve] at hstatus
  rcases hR : Outcome.ofSolve calledContext { simplifier := .saturation } calledIsZero.slots
    (calledArena 100) with x | R
  · rw [hR] at hstatus
    cases hstatus
  · rw [hR] at hsame
    cases (predefined_calledArena rfl hR).symm.trans hsame

end EquationStore

end Resolvent

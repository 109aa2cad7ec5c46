import Resolvent.Proofs.Expression.Growth
import Resolvent.Solve.Resolution

/-!
# Growth of the arena in a pass

Canonical forms, the classification of variables, the presentation of solutions and a pass as a
whole only let the arena grow, whether they succeed, stop early or run out of nodes.  A pass changes
neither the equations of the store nor its footprint (`EquationStore.solvePass_follows`).
-/

namespace Resolvent

/-! ### Canonical forms -/

namespace Build

theorem expand_grows (Δ : Definitions) (mode : Mode) (e : Expression) :
    Along Arena.GrowsTo id (Build.expand Δ mode e) := by
  intro A
  have hA : A.GrowsTo (e.expand Δ mode (A, {})).2.1 :=
    Expression.expandAt_grows maxSubstitutionDepth [] e (A, {})
  unfold Build.expand
  rcases hrun : e.expand Δ mode (A, {}) with ⟨x | h, B, met⟩
  · rwa [hrun] at hA
  · rwa [hrun] at hA

theorem replaceBy_grows (h : Handle) (placeholders : List Handle) (t : Term) :
    Along Arena.GrowsTo id (replaceBy h placeholders t) := by
  intro A
  have hA : A.GrowsTo (t.build placeholders A).2 := t.build_grows placeholders A
  unfold replaceBy
  rcases hrun : t.build placeholders A with ⟨x | r, B⟩
  · rw [hrun] at hA
    cases x <;> exact hA
  · rwa [hrun] at hA

theorem simplifyFunctions_grows (simplify : Term → Term) (h : Handle) :
    Along Arena.GrowsTo id (simplifyFunctions simplify h) := by
  refine Along.get.bind fun A => ?_
  split
  · dsimp only
    split
    · exact Along.pure _
    · exact replaceBy_grows _ _ _
  · exact Along.pure _

theorem canonical_grows (c : Canonizer) (h : Handle) :
    Along Arena.GrowsTo id (canonical c h) := by
  refine Along.get.bind fun A => (expand_grows _ _ _).bind fun expanded => ?_
  refine (lift_grows _ (simplifyFunctions_grows _ _)).bind fun simplified => ?_
  exact Along.get.bind fun B => (Along.ofExcept _).bind fun form => Along.pure _

end Build

/-! ### Stages -/

namespace Stage

variable {σ τ ε α : Type}

theorem build_grows {m : Build α} (hm : Along Arena.GrowsTo id m) :
    Along Arena.GrowsTo Prod.snd (Stage.build m : Stage σ α) := by
  rintro ⟨s, A⟩
  have hA := hm A
  unfold Stage.build
  dsimp only
  rcases hrun : m A with ⟨e | a, B⟩
  · rwa [hrun] at hA
  · rwa [hrun] at hA

theorem settle_grows {m : BuildT ε α} (hm : Along Arena.GrowsTo id m) :
    Along Arena.GrowsTo Prod.snd (settle m : Stage σ (Except ε α)) := fun x => hm x.2

theorem look_grows (f : σ → τ) : Along Arena.GrowsTo Prod.snd (look f) := fun x => .refl x.2

theorem arena_grows : Along Arena.GrowsTo Prod.snd (arena : Stage σ Arena) := fun x => .refl x.2

theorem update_grows (f : σ → σ) : Along Arena.GrowsTo Prod.snd (update f) := fun x => .refl x.2

theorem halt_grows (h : Halt) : Along Arena.GrowsTo Prod.snd (halt h : Stage σ α) := fun x =>
  .refl x.2

end Stage

namespace Catalog

open Stage

theorem noteForm_grows (c : Canonical) : Along Arena.GrowsTo Prod.snd (noteForm c) := by
  refine (look_grows _).bind fun known => (update_grows _).bind fun _ => ?_
  split
  · exact halt_grows _
  · exact update_grows _

theorem noteResult_grows (r : Except CanonicalError Canonical) :
    Along Arena.GrowsTo Prod.snd (noteResult r) := by
  unfold noteResult
  split
  · exact noteForm_grows _
  all_goals exact halt_grows _

theorem noteEquation_grows (c : Canonizer) (h : Handle) :
    Along Arena.GrowsTo Prod.snd (noteEquation c h) := by
  have hcanonical : ∀ c : Canonizer,
      Along Arena.GrowsTo Prod.snd (settle (Build.canonical c h) : Stage Catalog _) := fun c =>
    settle_grows (Build.canonical_grows c h)
  have hplain : ∀ c : Canonizer, Along Arena.GrowsTo Prod.snd
      (settle (Build.canonical c h) >>= noteResult : Stage Catalog Unit) := fun c =>
    (hcanonical c).bind noteResult_grows
  refine (look_grows _).bind fun known => ?_
  split
  · refine (hcanonical _).bind fun symbolic => arena_grows.bind fun A => ?_
    refine (update_grows _).bind fun _ => ?_
    split
    · exact noteResult_grows _
    · exact hplain c.later
  · exact hplain c

theorem noteAll_grows (c : Canonizer) (hs : List Handle) :
    Along Arena.GrowsTo Prod.snd (noteAll c hs) := by
  induction hs generalizing c with
  | nil => exact Along.pure _
  | cons h hs ih => exact (noteEquation_grows c h).bind fun _ => ih _

theorem classify_grows (c : Canonizer) (hs : List Handle) :
    Along Arena.GrowsTo Prod.snd (classify c hs) :=
  (update_grows _).bind fun _ => noteAll_grows c hs

end Catalog

namespace Solution

open Stage

theorem present_grows (p : Preferences) (exam : ExamMode) (status : Status) (answer : Answer) :
    Along Arena.GrowsTo Prod.snd (present p exam status answer) := by
  refine (build_grows (Build.store_grows _)).bind fun exact => ?_
  refine (build_grows (Build.store_grows _)).bind fun approximate => arena_grows.bind fun A => ?_
  split
  · exact Along.pure _
  · exact Along.pure _
  · exact (update_grows _).bind fun _ => Along.pure _

theorem presentAll_grows (p : Preferences) (exam : ExamMode) (status : Status)
    (answers : List Answer) : Along Arena.GrowsTo Prod.snd (presentAll p exam status answers) := by
  induction answers generalizing status with
  | nil => exact Along.pure _
  | cons answer answers ih => exact (present_grows p exam status answer).bind ih

end Solution

namespace EquationStore

/-- What a pass may change of a store and an arena, besides the catalog and the results: nodes are
stored, and the interval becomes the standard one. -/
structure Follows (x y : EquationStore × Arena) : Prop where
  grows : x.2.GrowsTo y.2
  slots : y.1.slots = x.1.slots
  footprint : y.1.footprint = x.1.footprint
  interval : y.1.interval = x.1.interval ∨ y.1.interval = {}

namespace Follows

theorem refl (x : EquationStore × Arena) : Follows x x := ⟨.refl _, rfl, rfl, .inl rfl⟩

theorem trans {x y z : EquationStore × Arena} (h : Follows x y) (h' : Follows y z) :
    Follows x z where
  grows := h.grows.trans h'.grows
  slots := h'.slots.trans h.slots
  footprint := h'.footprint.trans h.footprint
  interval := h'.interval.elim (fun heq => heq ▸ h.interval) .inr

instance : IsPreorder (EquationStore × Arena) Follows where
  refl := refl
  trans _ _ _ := trans

end Follows

variable {α τ : Type}

theorem build_follows {m : Build α} (hm : Along Arena.GrowsTo id m) :
    Along Follows id (Stage.build m) := by
  rintro ⟨s, A⟩
  have hA := hm A
  unfold Stage.build
  dsimp only
  rcases hrun : m A with ⟨e | a, B⟩
  · rw [hrun] at hA
    exact ⟨hA, rfl, rfl, .inl rfl⟩
  · rw [hrun] at hA
    exact ⟨hA, rfl, rfl, .inl rfl⟩

theorem look_follows (f : EquationStore → τ) : Along Follows id (Stage.look f) := fun x => .refl x

theorem arena_follows : Along Follows id (Stage.arena : Stage EquationStore Arena) := fun x =>
  .refl x

theorem halt_follows (h : Halt) : Along Follows id (Stage.halt h : Stage EquationStore α) := fun x =>
  .refl x

theorem record_follows (f : Results → Results) : Along Follows id (record f) := fun _ =>
  ⟨.refl _, rfl, rfl, .inl rfl⟩

theorem onCatalog_follows {m : Stage Catalog α} (hm : Along Arena.GrowsTo Prod.snd m) :
    Along Follows id (onCatalog m) := fun x => ⟨hm (x.1.catalog, x.2), rfl, rfl, .inl rfl⟩

theorem onSolutions_follows {m : Stage (List Solution) α} (hm : Along Arena.GrowsTo Prod.snd m) :
    Along Follows id (onSolutions m) := fun x =>
  ⟨hm (x.1.results.solutions, x.2), rfl, rfl, .inl rfl⟩

theorem listAnswers_follows (options : SolveOptions) (p : Preferences) (answers : List Answer) :
    Along Follows id (listAnswers options p answers) := by
  refine (onSolutions_follows (Solution.presentAll_grows _ _ _ _)).bind fun status => ?_
  exact (record_follows _).bind fun _ => (record_follows _).bind fun _ => Along.pure _

theorem prepareSearch_follows (e : SearchEquation) : Along Follows id (prepareSearch e) := by
  refine (record_follows _).bind fun _ => Along.bind ?_ fun _ => ?_
  · exact fun x => ⟨.refl _, rfl, rfl, .inr rfl⟩
  · exact (record_follows _).bind fun _ => Along.pure _

theorem solveEquation_follows (options : SolveOptions) (p : Preferences) (mode : Mode)
    (hs : List Handle) : Along Follows id (solveEquation options p mode hs) := by
  refine (look_follows _).bind fun k => ?_
  split
  · split
    · exact (record_follows _).bind fun _ => listAnswers_follows _ _ _
    · exact prepareSearch_follows _
  · exact halt_follows _

theorem solveCatalog_follows (options : SolveOptions) (p : Preferences) (mode : Mode)
    (hs : List Handle) : Along Follows id (solveCatalog options p mode hs) := by
  refine (look_follows _).bind fun k => ?_
  split
  · exact listAnswers_follows _ _ _
  · exact Along.pure _
  · exact (record_follows _).bind fun _ => Along.pure _
  · exact solveEquation_follows _ _ _ _

theorem solveForms_follows (Γ : Context Handle) (options : SolveOptions) (mode : Mode)
    (hs : List Handle) : Along Follows id (solveForms Γ options mode hs) := by
  refine arena_follows.bind fun A => ?_
  exact (onCatalog_follows (Catalog.classify_grows _ _)).bind fun _ => solveCatalog_follows _ _ _ _

/-- A pass, also one that runs out of nodes, lets the arena grow and changes nothing of the store
but its catalog, its results and the interval. -/
theorem solvePass_follows (Γ : Context Handle) (options : SolveOptions) (mode : Mode) :
    Along Follows id (solvePass Γ options mode) := by
  refine (record_follows _).bind fun _ => (look_follows _).bind fun es => ?_
  refine (build_follows (Along.mapM (fun e => ?_) es)).bind fun hs => solveForms_follows _ _ _ _
  exact Build.difference_grows _ _

end EquationStore

end Resolvent

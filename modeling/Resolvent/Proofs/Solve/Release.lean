import Resolvent.Proofs.Solve.Repetition
import Resolvent.Proofs.Solve.SearchInterval
import Resolvent.Proofs.Solve.Session
import Resolvent.Term.Reader

/-!
# The release of the nodes of solves

The operations on a store of equations are to read and remove equations, to solve, to set a bound,
to search and to tidy up.  However they follow each other, with as many solves as there may be, a
final tidying up leaves the arena that reading the texts alone would have led to
(`Session.tidy_run`): the nodes of each solve are released before the next equation is read, and so
are those of a solve that has failed.

The invariant is `Session.Settled`.  It says of the arena that the texts alone have led to that the
arena at hand is this one or, behind a solve, has grown from it, and that all the equations and
definitions refer to it.  So no release is ever held up, neither by nodes that came later nor by
what is referred to.

A second solve in a row starts from an arena that holds the nodes of the first, and from a store
that is full of its results.  It comes to the same, to the last handle
(`EquationStore.solve_solve`), if the simplifier repeats its answers: the nodes of the first are
released, whatever it has come to, so that both start in the same arena; from there the passes are
the same; and the interval that the passes of the first have left is the one that they leave once
more.
-/

namespace Resolvent

/-! ### The texts that are read -/

/-- The arena behind reading texts of equations, one after the other, whether they are equations or
not.  With each text comes its reader. -/
def Arena.readAll (A : Arena) (texts : List (Term.Reader × String)) : Arena :=
  texts.foldl (fun A (read, text) => (Equation.parse read text A).2) A

theorem Arena.readAll_append (A : Arena) (texts texts' : List (Term.Reader × String)) :
    A.readAll (texts ++ texts') = (A.readAll texts).readAll texts' := List.foldl_append

theorem EquationStore.equations_removeAll (s : EquationStore) : s.removeAll.equations = [] := by
  simp [equations, removeAll]

/-- The operation is one on the store of equations. -/
def Operation.IsOfStore : Operation → Prop
  | .addText _ _ | .remove _ | .removeAll | .solve _ | .setBound _ _ | .search _ | .tidy => True
  | _ => False

namespace Session

/-- The session behind operations. -/
def run (S : Session) (ops : List Operation) : Session := ops.foldl perform S

/-- The text that an operation reads; none is read without a slot for the equation. -/
def textRead? (S : Session) : Operation → Option (Term.Reader × String)
  | .addText read text =>
    if saysFull (S.store.addText S.context read text S.arena).1 then none else some (read, text)
  | _ => none

/-- The texts that operations read. -/
def textsRead (S : Session) : List Operation → List (Term.Reader × String)
  | [] => []
  | op :: ops => (S.textRead? op).toList ++ (S.perform op).textsRead ops

/-! ### The invariant -/

/-- The equations and definitions refer to an arena, which is the one at hand or the one in which the
last solve began. -/
structure Settled (S : Session) (A : Arena) : Prop where
  indexed : A.Indexed
  stored : ∀ h ∈ S.handles, Stored h A
  arena : S.store.footprint = none → S.arena = A
  footprint : ∀ f, S.store.footprint = some f →
    f.start = A.checkpoint ∧ f.stop = S.arena.size ∧ A.GrowsTo S.arena

variable {S T : Session} {A : Arena}

/-- The nodes of the last solve are always released. -/
theorem Settled.release (hS : S.Settled A) : S.store.release S.context S.arena = A := by
  unfold EquationStore.release
  split
  · next f hf =>
    obtain ⟨hstart, hstop, hgrows⟩ := hS.footprint f hf
    rw [if_pos, hstart, hgrows.rollback]
    refine ⟨hstop.symm, List.any_eq_false.2 fun h hh => ?_⟩
    -- what is referred to comes before the nodes of the solve
    have hlt : h.index < A.size := Arena.contains_iff.1 (hS.stored h hh)
    rw [hstart, decide_eq_true_iff]
    exact Nat.not_le_of_lt hlt
  · next hf => exact hS.arena hf

theorem Settled.tidy (hS : S.Settled A) : (S.perform .tidy).Settled A where
  indexed := hS.indexed
  stored := hS.stored
  arena _ := hS.release
  footprint f hf := by cases hf

theorem Settled.withStore (hS : S.Settled A) {α : Type} {f : α → EquationStore}
    {r : Except StoreError α}
    (h : ∀ a, r = .ok a → (∀ e ∈ (f a).equations, e ∈ S.store.equations) ∧
      (f a).footprint = S.store.footprint) : (S.withStore f r).Settled A := by
  cases r with
  | error x => exact hS
  | ok a =>
    obtain ⟨hequations, hfootprint⟩ := h a rfl
    refine ⟨hS.indexed, fun h hh => ?_, fun hf => hS.arena (hfootprint ▸ hf),
      fun f hf => hS.footprint f (hfootprint ▸ hf)⟩
    rcases mem_handles.1 hh with ⟨e, he, hhe⟩ | hh
    · exact hS.stored h (mem_handles.2 (.inl ⟨e, hequations e he, hhe⟩))
    · exact hS.stored h (mem_handles.2 (.inr hh))

/-! ### Steps -/

theorem Settled.addText (hS : S.Settled A) (read : Term.Reader) (text : String) :
    (S.perform (.addText read text)).Settled
      (A.readAll (S.textRead? (.addText read text)).toList) := by
  dsimp only [perform, textRead?]
  by_cases hfull : S.store.freeSlot?.isNone = true
  · rw [EquationStore.addText_of_full _ _ _ _ hfull]
    exact hS
  · obtain ⟨r, t, hadd, hr, hfootprint, hequations⟩ :=
      EquationStore.addText_of_free S.context read text S.arena hfull
    rw [hS.release] at hadd hequations
    rw [hadd]
    dsimp only
    rw [hr, if_neg Bool.false_ne_true]
    obtain ⟨hgrows, hkeeps, hresult⟩ :
        Yields id Arena.Indexed (Equation.parse read text) A _ :=
      Equation.parse_yields hS.indexed read text
    have hhandles : ∀ h ∈ (⟨(Equation.parse read text A).2, S.context, t⟩ : Session).handles,
        h ∈ S.handles ∨ Stored h (Equation.parse read text A).2 :=
      handles_of_equations rfl fun e he => (hequations e he).imp_right (hresult e)
    refine ⟨hkeeps, fun h hh => ?_, fun _ => rfl, fun f hf => by simp [hfootprint] at hf⟩
    rcases hhandles h hh with hh | hh
    · exact lasting_stored _ _ _ hgrows (hS.stored h hh)
    · exact hh

theorem Settled.solve (hS : S.Settled A) (options : SolveOptions) :
    (S.perform (.solve options)).Settled A := by
  obtain ⟨i, -, hsolve⟩ := S.store.exists_solve_eq_leave S.context options S.arena
  have htidy : (S.store.tidy S.context S.arena).2 = A := hS.release
  rw [htidy] at hsolve
  dsimp only [perform]
  rw [hsolve]
  rcases hR : Outcome.ofSolve S.context options S.store.slots A with x | P
  · exact ⟨hS.indexed, hS.stored, fun _ => rfl, nofun⟩
  · obtain ⟨n, mode, hP⟩ := EquationStore.exists_mode_of_ofSolve hR
    refine ⟨hS.indexed, hS.stored, nofun, fun f hf => ?_⟩
    obtain rfl := Option.some.inj hf
    exact ⟨rfl, rfl, EquationStore.grows_of_ofPass hP⟩

theorem Settled.perform (hS : S.Settled A) {op : Operation} (hop : op.IsOfStore) :
    (S.perform op).Settled (A.readAll (S.textRead? op).toList) := by
  cases op with
  | addText read text => exact hS.addText read text
  | remove slot =>
    refine hS.withStore fun a ha => ?_
    exact EquationStore.remove_eq_ok ha
  | removeAll =>
    refine ⟨hS.indexed, fun h hh => hS.stored h ?_, hS.arena, hS.footprint⟩
    rcases mem_handles.1 hh with ⟨e, he, -⟩ | hh
    · exact absurd (S.store.equations_removeAll ▸ he) List.not_mem_nil
    · exact mem_handles.2 (.inr hh)
  | solve options => exact hS.solve options
  | setBound index x =>
    refine hS.withStore fun t ht => ?_
    obtain ⟨hslots, hfootprint⟩ := EquationStore.setBound_eq_ok ht
    refine ⟨fun e he => ?_, hfootprint⟩
    rwa [id_eq, EquationStore.mem_equations_iff, hslots, ← EquationStore.mem_equations_iff] at he
  | search options =>
    refine hS.withStore fun t ht => ?_
    obtain ⟨hslots, hfootprint⟩ := EquationStore.search_eq_ok ht
    refine ⟨fun e he => ?_, hfootprint⟩
    rwa [id_eq, EquationStore.mem_equations_iff, hslots, ← EquationStore.mem_equations_iff] at he
  | tidy => exact hS.tidy
  | _ => exact hop.elim

/-! ### Runs -/

theorem Settled.run (hS : S.Settled A) {ops : List Operation} (hops : ∀ op ∈ ops, op.IsOfStore) :
    (S.run ops).Settled (A.readAll (S.textsRead ops)) := by
  induction ops generalizing S A with
  | nil => exact hS
  | cons op ops ih =>
    obtain ⟨hop, hops⟩ := List.forall_mem_cons.1 hops
    have hrest := ih (hS.perform hop) hops
    rwa [← Arena.readAll_append] at hrest

/-- Operations on a store that begins without nodes of a solve leave nothing in the arena but what
reading the texts of equations has stored, once they are followed by tidying up. -/
theorem tidy_run (hindexed : S.arena.Indexed) (hstored : ∀ h ∈ S.handles, Stored h S.arena)
    (hfootprint : S.store.footprint = none) {ops : List Operation}
    (hops : ∀ op ∈ ops, op.IsOfStore) :
    ((S.run ops).perform .tidy).arena = S.arena.readAll (S.textsRead ops) := by
  have hstart : S.Settled S.arena :=
    ⟨hindexed, hstored, fun _ => rfl, fun f hf => by simp [hfootprint] at hf⟩
  exact (hstart.run hops).release

/-! ### An equation between two solves -/

/-- A symbol and the definition `a = 0`. -/
def definedZero : Session := symbolAndZero.perform (.define "a" (.variable ⟨1⟩))

/-- Reads an equation, solves it, and solves again without it. -/
def solveTwice : List Operation :=
  [.addText Term.parse? "(= x a)", .solve { simplifier := .saturation }, .remove 0,
    .solve { simplifier := .saturation }]

theorem reachable_definedZero : definedZero.Reachable := by
  refine ⟨100, .tail (.tail (.single ⟨.construct (.symbol "x"), trivial, rfl⟩)
    ⟨.construct (.node (.integer 0)), ⟨nofun, nofun⟩, rfl⟩) ⟨.define "a" (.variable ⟨1⟩), ?_, rfl⟩⟩
  change Stored ⟨1⟩ symbolAndZero.arena
  simp [Stored, Arena.contains_iff, size_symbolAndZero]

theorem textsRead_solveTwice :
    definedZero.textsRead solveTwice = [(Term.parse?, "(= x a)")] := by
  have hfree : ¬ definedZero.store.freeSlot?.isNone = true := by decide
  obtain ⟨r, t, hadd, hr, -⟩ :=
    EquationStore.addText_of_free definedZero.context Term.parse? "(= x a)" definedZero.arena hfree
  simp [textsRead, solveTwice, textRead?, hadd, hr]

/-- Both solves leave nothing behind. -/
theorem tidy_run_solveTwice :
    definedZero.arena.Indexed ∧ (∀ h ∈ definedZero.handles, Stored h definedZero.arena) ∧
      definedZero.store.footprint = none ∧ (∀ op ∈ solveTwice, op.IsOfStore) ∧
      ((definedZero.run solveTwice).perform .tidy).arena =
        (Equation.parse Term.parse? "(= x a)" definedZero.arena).2 := by
  have hsound := reachable_definedZero.sound
  have hops : ∀ op ∈ solveTwice, op.IsOfStore := by simp [solveTwice, Operation.IsOfStore]
  have hrun := tidy_run hsound.wellFormed.indexed hsound.stored rfl hops
  rw [textsRead_solveTwice] at hrun
  exact ⟨hsound.wellFormed.indexed, hsound.stored, rfl, hops, hrun⟩

end Session

/-! ### Solving twice -/

namespace EquationStore

variable {s : EquationStore} {Γ : Context Handle} {options : SolveOptions} {A : Arena}

/-- What is stored before its nodes are released is not among the nodes of a solve. -/
theorem stored_release (hlive : ∀ h ∈ (⟨A, Γ, s⟩ : Session).handles, Stored h A) :
    ∀ h ∈ (⟨A, Γ, s⟩ : Session).handles, Stored h (s.release Γ A) := by
  intro h hh
  unfold release
  split
  · split
    · next f _ hrelease =>
      have hbeyond := of_decide_eq_false (eq_false_of_ne_true (List.any_eq_false.1 hrelease.2 h hh))
      have hlt : h.index < A.size := Arena.contains_iff.1 (hlive h hh)
      have hsize : (A.nodes.take f.start.nodes).size = min f.start.nodes A.size := by
        simp [Arena.size]
      refine Arena.contains_iff.2 (Nat.lt_of_lt_of_eq ?_ hsize.symm)
      exact Nat.lt_min.2 ⟨Nat.lt_of_not_le hbeyond, hlt⟩
    · exact hlive h hh
  · exact hlive h hh

/-- Behind a solve, tidying up leads back to the arena in which the solve began. -/
theorem tidy_leave {i : Interval} {R : Except SolveError Outcome}
    (hlive : ∀ h ∈ (⟨A, Γ, s⟩ : Session).handles, Stored h A)
    (hgrows : ∀ P, R = .ok P → A.GrowsTo P.arena) :
    ((Outcome.leave s.slots i A R).2.1.tidy Γ (Outcome.leave s.slots i A R).2.2).2 = A := by
  cases R with
  | error x => rfl
  | ok P =>
    have hbefore : s.refersBeyond Γ A.checkpoint.nodes = false := by
      refine List.any_eq_false.2 fun h hh => ?_
      have hlt : h.index < A.size := Arena.contains_iff.1 (hlive h hh)
      exact ne_true_of_eq_false (decide_eq_false (Nat.not_le_of_lt hlt))
    exact (if_pos ⟨rfl, hbefore⟩).trans (hgrows P rfl).rollback

/-- Where the simplifier repeats its answers, so do the passes. -/
theorem made_moment (hs : options.simplifier.Repeatable)
    (slots : Vector (Option Equation) maxVariables) (A : Arena) (moment : Nat) :
    Outcome.made Γ { options with moment } slots A = Outcome.made Γ options slots A := by
  have hlater : ({ options with moment } : SolveOptions).simplifier.Repeatable := hs
  unfold Outcome.made
  simp only [ofPass_afterPasses hs, ofPass_afterPasses hlater, ofPass_moment hs]

theorem ofSolve_moment (hs : options.simplifier.Repeatable)
    (slots : Vector (Option Equation) maxVariables) (A : Arena) (moment : Nat) :
    Outcome.ofSolve Γ { options with moment } slots A = Outcome.ofSolve Γ options slots A := by
  have hlater : ({ options with moment } : SolveOptions).simplifier.Repeatable := hs
  unfold Outcome.ofSolve
  simp only [ofPass_afterPasses hs, ofPass_afterPasses hlater, ofPass_moment hs]

/-- Where the equations and the definitions refer to stored expressions, a second solve comes to the
same as the first, if the simplifier does: it answers the same and leaves the same store and the same
arena, whenever it is made. -/
theorem solve_solve (s : EquationStore) (Γ : Context Handle) {options : SolveOptions} (A : Arena)
    (hsimplifier : options.simplifier.Repeatable)
    (hlive : ∀ h ∈ (⟨A, Γ, s⟩ : Session).handles, Stored h A) (moment : Nat) :
    (s.solve Γ options A).2.1.solve Γ { options with moment } (s.solve Γ options A).2.2 =
      s.solve Γ options A := by
  have hfirst := s.solve_eq_leave Γ options A
  have hsecond := (s.solve Γ options A).2.1.solve_eq_leave Γ { options with moment }
    (s.solve Γ options A).2.2
  -- the passes of the second solve start from the same equations in the same arena
  have htidy : ((s.solve Γ options A).2.1.tidy Γ (s.solve Γ options A).2.2).2 =
      (s.tidy Γ A).2 := by
    rw [hfirst]
    refine tidy_leave (stored_release hlive) fun P hP => ?_
    obtain ⟨n, mode, hmode⟩ := exists_mode_of_ofSolve hP
    exact grows_of_ofPass hmode
  have hslots : (s.solve Γ options A).2.1.slots = s.slots := by
    rw [hfirst, Outcome.leave_slots]
  rw [htidy, hslots, made_moment hsimplifier, ofSolve_moment hsimplifier] at hsecond
  rw [hsecond]
  -- and leave the interval that those of the first have left
  have hinterval := congrArg (fun y => y.2.1.interval) hfirst
  rw [Outcome.leave_interval] at hinterval
  rw [hinterval, hfirst]
  congr 1
  split <;> rfl

/-- The equation `x⁵ = a` with the definition `a = 1`: the first solve forgets the interval, and the
second leaves all as it is. -/
theorem solve_solve_fifthPower :
    (Simplifier.saturation).Repeatable ∧
    (∀ h ∈ (⟨fifthPowerArena, fifthPowerContext, fifthPower⟩ : Session).handles,
      Stored h fifthPowerArena) ∧
    (fifthPower.solve fifthPowerContext { simplifier := .saturation } fifthPowerArena).2.1.solve
        fifthPowerContext { simplifier := .saturation, moment := 9 }
      (fifthPower.solve fifthPowerContext { simplifier := .saturation } fifthPowerArena).2.2 =
        fifthPower.solve fifthPowerContext { simplifier := .saturation } fifthPowerArena ∧
    (fifthPower.solve fifthPowerContext { simplifier := .saturation } fifthPowerArena).1 =
      .ok .nonLinearSystem := by
  have hlive : ∀ h ∈ (⟨fifthPowerArena, fifthPowerContext, fifthPower⟩ : Session).handles,
      Stored h fifthPowerArena := by
    have hhandles : (⟨fifthPowerArena, fifthPowerContext, fifthPower⟩ : Session).handles =
        [⟨2⟩, ⟨3⟩, ⟨6⟩] := rfl
    rw [hhandles]
    intro h hh
    refine Arena.contains_iff.2 ?_
    simp only [List.mem_cons, List.not_mem_nil, or_false] at hh
    rcases hh with rfl | rfl | rfl <;> decide
  have hrepeatable := Simplifier.saturation_repeatable {}
  exact ⟨hrepeatable, hlive,
    solve_solve fifthPower fifthPowerContext fifthPowerArena hrepeatable hlive 9,
    solve_fifthPower _⟩

end EquationStore

end Resolvent

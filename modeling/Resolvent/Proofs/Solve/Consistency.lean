import Resolvent.Proofs.Solve.Classification
import Resolvent.Proofs.Solve.Presentation
import Resolvent.Proofs.Solve.Release
import Resolvent.Proofs.Solve.RootOrder

/-!
# Results that fit together

The accessors of a store read a dozen fields that different branches of a pass have written.  From
the first operation on that renews the results (a solve, tidying up, or reading an equation that
there is a slot for) they never contradict each other, whatever is done next
(`Session.consistent_run`): with equations removed or added, bounds set, searches made and solves
that run out of nodes.

The invariant is `Results.Agree` of the results and the catalog.  An operation that renews the
results establishes it whatever was there before, and every operation keeps it: a search is the only
one that changes a part of the results, and it lists roots where the system is left to a search.
-/

namespace Resolvent

namespace EquationStore

/-- What can be read from a store fits together. -/
structure Consistent (s : EquationStore) : Prop extends Results.Agree s.results s.catalog where
  /-- A search is possible where the system is left to one, and nowhere else. -/
  searches : ∀ Γ options A t, s.search Γ options A = .ok t → s.results.kind = .search
  bounds : ∀ index x t, s.setBound index x = .ok t → s.results.kind = .search
  roots_listed : s.results.roots.roots ≠ [] → s.results.kind = .search
  count_search : s.results.kind = .search → s.count = .finite s.results.roots.roots.length
  count_finite : ∀ n, s.results.kind ≠ .search → s.count = .finite n →
    s.results.solutions.length = n
  count_infinite : s.count = .infinite → s.results.kind = .linear ∧ s.results.solutions = []

variable {s t : EquationStore} {Γ : Context Handle} {options : SolveOptions} {A : Arena}

/-- Nothing can be searched but the equation of the results. -/
theorem isSome_of_search (h : s.search Γ options A = .ok t) : s.results.search.isSome := by
  unfold search at h
  split at h
  · cases h
  · next e he => exact Option.isSome_iff_exists.2 ⟨e, (Option.filter_eq_some_iff.1 he).1⟩

theorem consistent_of_agree (h : Results.Agree s.results s.catalog) : s.Consistent where
  toAgree := h
  searches Γ options A t ht := h.search.1 (isSome_of_search ht)
  bounds index x t ht := by
    by_contra hkind
    rw [setBound, if_pos hkind] at ht
    cases ht
  roots_listed hroots := by
    by_contra hkind
    exact hroots (by rw [h.roots hkind])
  count_search hkind := if_pos hkind
  count_finite n hkind hcount := by
    rw [count, if_neg hkind] at hcount
    exact h.finite n hkind hcount
  count_infinite hcount := by
    unfold count at hcount
    split at hcount
    · cases hcount
    · exact h.infinite hcount

/-! ### Operations that renew the results -/

/-- The results of an outcome, as a solve leaves them behind, fit its catalog. -/
theorem agree_of_ofPass {slots : Vector (Option Equation) maxVariables} {mode : Mode} {P : Outcome}
    (h : Outcome.ofPass Γ options slots A mode = .ok P) :
    Results.Agree { P.results with status := P.status } P.catalog := by
  have hfinds := solvePass_finds Γ options mode (s := { slots, results := {} }) rfl A
  unfold Stage.Ends at hfinds
  unfold Outcome.ofPass at h
  rcases hrun : solvePass Γ options mode ({ slots, results := {} }, A) with
    ⟨(status | _) | status, s, B⟩
  all_goals
    rw [hrun] at h hfinds
    cases h
  · obtain ⟨⟨e, he⟩, -⟩ | ⟨status', hstatus, hagree, -⟩ := hfinds
    · cases he
    · obtain hstatus | hstatus := hstatus <;> cases hstatus
      exact hagree
  · obtain ⟨⟨e, he⟩, -⟩ | ⟨status', hstatus, hagree, -⟩ := hfinds
    · cases he
    · obtain hstatus | hstatus := hstatus <;> cases hstatus
      exact hagree

theorem agree_solve (s : EquationStore) (Γ : Context Handle) (options : SolveOptions) (A : Arena) :
    Results.Agree (s.solve Γ options A).2.1.results (s.solve Γ options A).2.1.catalog := by
  obtain ⟨i, -, hsolve⟩ := s.exists_solve_eq_leave Γ options A
  rw [hsolve]
  rcases hR : Outcome.ofSolve Γ options s.slots (s.tidy Γ A).2 with x | P
  · exact Results.agree_none _ _ nofun
  · obtain ⟨n, mode, hP⟩ := exists_mode_of_ofSolve hR
    exact agree_of_ofPass hP

theorem agree_clear (s : EquationStore) : Results.Agree s.clear.results s.clear.catalog :=
  Results.agree_none _ _ nofun

theorem add_results {e : Equation} {slot : Nat} (h : s.add e = .ok (slot, t)) :
    t.results = s.results ∧ t.catalog = s.catalog := by
  unfold add at h
  split at h
  · cases h
    exact ⟨rfl, rfl⟩
  · cases h

/-- Where there is a slot for it, a text is read without results, be it an equation or not. -/
theorem agree_addText (read : Term.Reader) (text : String)
    (h : saysFull (s.addText Γ read text A).1 = false) :
    Results.Agree (s.addText Γ read text A).2.1.results
      (s.addText Γ read text A).2.1.catalog := by
  unfold addText at h ⊢
  split at h
  · cases h
  · next hfree =>
    rw [if_neg hfree]
    dsimp only [tidy]
    rcases Equation.parse read text (s.release Γ A) with ⟨x | e, B⟩
    · exact s.agree_clear
    · rcases hadd : s.clear.add e with x | ⟨slot, t⟩
      · simp only [hadd]
        exact s.agree_clear
      · obtain ⟨hresults, hcatalog⟩ := add_results hadd
        simp only [hadd, hresults, hcatalog]
        exact s.agree_clear

/-! ### Operations that keep the results -/

theorem remove_results {e : Equation} {slot : Nat} (h : s.remove slot = .ok (e, t)) :
    t.results = s.results ∧ t.catalog = s.catalog := by
  unfold remove at h
  split at h
  · cases h
    exact ⟨rfl, rfl⟩
  · cases h

theorem setBound_results {index : Nat} {x : Float} (h : s.setBound index x = .ok t) :
    t.results = s.results ∧ t.catalog = s.catalog := by
  unfold setBound at h
  split at h
  · cases h
  · split at h
    · cases h
    · split at h
      · cases h
        exact ⟨rfl, rfl⟩
      · cases h

/-- A search lists roots where there is an equation to search with, so where roots may be listed. -/
theorem agree_search (h : Results.Agree s.results s.catalog)
    (ht : s.search Γ options A = .ok t) : Results.Agree t.results t.catalog := by
  have hkind := h.search.1 (isSome_of_search ht)
  unfold search at ht
  split at ht
  · cases ht
  · cases ht
    exact { h with roots := fun hne => absurd hkind hne }

end EquationStore

namespace Session

variable {S : Session}

/-- The operation drops the results that the store has had. -/
def Renews (S : Session) : Operation → Prop
  | .solve _ | .tidy => True
  | .addText read text => saysFull (S.store.addText S.context read text S.arena).1 = false
  | _ => False

/-- The results of the store fit its catalog. -/
def Agrees (S : Session) : Prop := S.store.results.Agree S.store.catalog

theorem agrees_of_renews {op : Operation} (hop : S.Renews op) : (S.perform op).Agrees := by
  cases op with
  | solve options => exact S.store.agree_solve S.context options S.arena
  | tidy => exact S.store.agree_clear
  | addText read text => exact EquationStore.agree_addText read text hop
  | _ => exact hop.elim

theorem Agrees.withStore (hS : S.Agrees) {α : Type} {f : α → EquationStore}
    {r : Except StoreError α} (h : ∀ a, r = .ok a → (f a).results.Agree (f a).catalog) :
    (S.withStore f r).Agrees := by
  cases r with
  | error x => exact hS
  | ok a => exact h a rfl

/-- Every operation keeps what fits together. -/
theorem Agrees.perform (hS : S.Agrees) (op : Operation) : (S.perform op).Agrees := by
  cases op with
  | construct c => exact hS
  | number name => exact hS
  | define name d => exact hS
  | undefine name => exact hS
  | add e =>
    refine hS.withStore fun a ha => ?_
    obtain ⟨hresults, hcatalog⟩ := EquationStore.add_results ha
    rw [hresults, hcatalog]
    exact hS
  | addText read text =>
    by_cases hfull : S.store.freeSlot?.isNone = true
    · dsimp only [Session.perform]
      rw [EquationStore.addText_of_full _ _ _ _ hfull]
      exact hS
    · obtain ⟨r, t, hadd, hr, -⟩ :=
        EquationStore.addText_of_free S.context read text S.arena hfull
      have hrenews : S.Renews (.addText read text) := by
        rw [Renews, hadd]
        exact hr
      exact agrees_of_renews hrenews
  | remove slot =>
    refine hS.withStore fun a ha => ?_
    obtain ⟨hresults, hcatalog⟩ := EquationStore.remove_results ha
    rw [hresults, hcatalog]
    exact hS
  | removeAll => exact hS
  | solve options => exact S.store.agree_solve S.context options S.arena
  | setBound index x =>
    refine hS.withStore fun t ht => ?_
    obtain ⟨hresults, hcatalog⟩ := EquationStore.setBound_results ht
    rw [id, hresults, hcatalog]
    exact hS
  | search options => exact hS.withStore fun t ht => EquationStore.agree_search hS ht
  | tidy => exact S.store.agree_clear

theorem Agrees.run (hS : S.Agrees) (ops : List Operation) : (S.run ops).Agrees := by
  induction ops generalizing S with
  | nil => exact hS
  | cons op ops ih => exact ih (hS.perform op)

/-- From the first operation on that renews the results, what can be read from the store fits
together, whatever went before and whatever comes next. -/
theorem consistent_run (before after : List Operation) {op : Operation}
    (hop : (S.run before).Renews op) : (S.run (before ++ op :: after)).store.Consistent := by
  have hrun : S.run (before ++ op :: after) = ((S.run before).perform op).run after := by
    simp only [run, List.foldl_append, List.foldl_cons]
  rw [hrun]
  exact EquationStore.consistent_of_agree ((agrees_of_renews hop).run after)

/-- Setting a bound and searching leave the kind of the system and its exact solutions alone. -/
theorem kind_perform {op : Operation} (hop : (∃ i x, op = .setBound i x) ∨ ∃ o, op = .search o) :
    (S.perform op).store.results.kind = S.store.results.kind ∧
      (S.perform op).store.results.solutions = S.store.results.solutions := by
  rcases hop with ⟨i, x, rfl⟩ | ⟨o, rfl⟩
  · dsimp only [Session.perform]
    rcases ht : S.store.setBound i x with e | t
    · exact ⟨rfl, rfl⟩
    · obtain ⟨hresults, -⟩ := EquationStore.setBound_results ht
      exact ⟨congrArg Results.kind hresults, congrArg Results.solutions hresults⟩
  · dsimp only [Session.perform]
    unfold EquationStore.search
    split <;> exact ⟨rfl, rfl⟩

end Session

/-! ### A search and a quadratic equation -/

/-- The nodes of `x⁵ - 1` and of `x² - 1`. -/
def unitPowerNodes : List Node :=
  [.symbol 0, .integer 5, .power ⟨0⟩ ⟨1⟩, .integer 1, .opposite ⟨3⟩, .sum [⟨2⟩, ⟨4⟩], .integer 2,
    .power ⟨0⟩ ⟨6⟩, .sum [⟨7⟩, ⟨4⟩]]

/-- The arena of these nodes. -/
def unitPowerArena : Arena := .ofNodes ["x"] unitPowerNodes (List.nodup_singleton _)

/-- The form of `x² - 1`, or of `x⁵ - 1`. -/
def unitPowerForm (square : Bool) : Form :=
  .add (.ofFactors 1 [(.symbol 0, if square then 2 else 5)]) (.ofRat (-1))

/-- The power, and what is to be zero. -/
def unitPowerHandles (square : Bool) : Handle × Handle :=
  if square then (⟨7⟩, ⟨8⟩) else (⟨2⟩, ⟨5⟩)

/-- The catalog of an equation that says that a power is one. -/
def unitPowerCatalog (square : Bool) : Catalog := { unknowns := [0], forms := [unitPowerForm square] }

namespace Build

theorem wellFormed_unitPowerArena : unitPowerArena.WellFormed :=
  .ofNodes (by decide) (by decide) (by decide)

theorem intern_unitPowerArena {n : Node} (hn : n ∈ unitPowerNodes) :
    intern n unitPowerArena = (.ok ⟨unitPowerNodes.idxOf n⟩, unitPowerArena) :=
  intern_ofNodes wellFormed_unitPowerArena hn

section Runs

open Expression

attribute [local simp] Build.expand expand_eq expandAt_succ expandWith pure_run expandAllWith
  expandSymbol ExpandM.build bind_run Build.integer sum_pair meet_run List.lookup_nil Build.power
  Build.opposite intern_unitPowerArena unitPowerNodes

theorem expand_unitPowerArena (square : Bool) (mode : Mode) :
    Build.expand (({} : Context Handle).definitions unitPowerArena) mode
      (unitPowerArena.expression (unitPowerHandles square).2) unitPowerArena =
      (.ok ((unitPowerHandles square).2, { met := [0] }), unitPowerArena) := by
  have hfree : (({} : Context Handle).definitions unitPowerArena).value? 0 = none := rfl
  have hexpression (square : Bool) : unitPowerArena.expression (unitPowerHandles square).2 =
      .sum [.power (.symbol 0) (.integer (if square then 2 else 5)), .opposite (.integer 1)] := by
    cases square <;> rfl
  rw [hexpression]
  cases square
  · simp (disch := decide) [-bind_pure_comp, hfree, unitPowerHandles]
  · simp (disch := decide) [-bind_pure_comp, hfree, unitPowerHandles]

end Runs

theorem canonical_unitPowerArena (square : Bool) (mode : Mode) (simplifier : Simplifier)
    (moment : Nat) :
    canonical ⟨{}, mode, {}, simplifier, moment⟩ (unitPowerHandles square).2 unitPowerArena =
      (.ok ⟨unitPowerForm square, [0]⟩, unitPowerArena) := by
  have hform : ((unitPowerArena.expression (unitPowerHandles square).2).form {}).map
      (fun f => Canonical.mk f ([0].filter fun s => f.mentions s || [].contains s)) =
        .ok ⟨unitPowerForm square, [0]⟩ := by
    cases square <;> decide +kernel
  refine canonical_of_plain ⟨{}, mode, {}, simplifier, moment⟩ (expand_unitPowerArena square mode)
    ?_ hform
  cases square <;> rfl

end Build

namespace EquationStore

/-- The equation `x² = 1`, or `x⁵ = 1`. -/
def unitPower (square : Bool) : EquationStore := single ⟨(unitPowerHandles square).1, ⟨3⟩⟩

theorem standardForm_unitPower (square : Bool) :
    Equation.standardForm ⟨(unitPowerHandles square).1, ⟨3⟩⟩ unitPowerArena =
      (.ok (unitPowerHandles square).2, unitPowerArena) := by
  have hopposite : Build.opposite ⟨3⟩ unitPowerArena = (.ok ⟨4⟩, unitPowerArena) :=
    Build.intern_of_node? Build.wellFormed_unitPowerArena rfl
  unfold Equation.standardForm Build.difference
  rw [bind_run, hopposite]
  cases square <;> exact Build.intern_of_node? Build.wellFormed_unitPowerArena rfl

theorem solvePass_unitPower (square : Bool) (simplifier : Simplifier) :
    solvePass {} { simplifier } .replaceAll
      ({ slots := (unitPower square).slots, results := {} }, unitPowerArena) =
        solveEquation { simplifier } {} .replaceAll [(unitPowerHandles square).2]
          ({ slots := (unitPower square).slots, catalog := unitPowerCatalog square
             results := { replaced := true } }, unitPowerArena) := by
  have hclassify : Catalog.classify (({ simplifier } : SolveOptions).canonizer {} .replaceAll {})
      [(unitPowerHandles square).2] ({}, unitPowerArena) =
        (.ok (), (unitPowerCatalog square, unitPowerArena)) := by
    rw [Catalog.classify_singleton, bind_run, Catalog.noteEquation_of_replaced
      (c := ({ simplifier } : SolveOptions).canonizer {} .replaceAll {}) rfl (by decide)
      (Build.canonical_unitPowerArena square .functionsOnly simplifier 0) nofun
      (Build.canonical_unitPowerArena square .replaceAll simplifier 1)]
    rfl
  have hlinear : LinearSystem.solve [unitPowerForm square] [0] = .notLinear := by
    cases square <;> decide +kernel
  have hequations : equations { slots := (unitPower square).slots } =
      [⟨(unitPowerHandles square).1, ⟨3⟩⟩] := equations_single _
  rw [solvePass_of_classify hequations (standardForm_unitPower square) (by cases square <;> rfl)
    hclassify, solveCatalog, bind_run]
  dsimp only [Stage.look, unitPowerCatalog]
  rw [hlinear]
  rfl

/-- The roots of `x² - 1` and the discriminant are whole numbers. -/
theorem polynomialRoots?_unitPowerForm : (unitPowerForm true).polynomialRoots? {} 0 =
    some { degree := 2, answers := Answer.ofRats [-1, 1, 4] } := by
  have hpolynomial : (unitPowerForm true).polynomial? 0 maxExactDegree =
      some ([-1, 0, 1].map Form.ofRat) := by decide +kernel
  have hroots : (Quadratic.ofRats 1 0 (-1)).roots {} = Answer.ofRats [-1, 1] := by
    with_unfolding_all rfl
  have hlisted : Answer.listed {} (Answer.ofRats [-1, 1]) = Answer.ofRats [-1, 1] := by
    refine Answer.listed_of_pairwise (List.pairwise_pair.2 ?_) (List.pairwise_pair.2 ?_)
    · decide +kernel
    · decide +kernel
  rw [Form.polynomialRoots?_ofRats_quadratic hpolynomial, hroots, hlisted]
  have hdiscriminant : discrim 1 0 (-1 : Rat) = 4 := by decide +kernel
  rw [hdiscriminant]
  rfl

/-- The only pass over `x⁵ = 1` leaves it to a search. -/
theorem exists_ofPass_fifthUnitPower (simplifier : Simplifier) : ∃ P,
    Outcome.ofPass {} { simplifier } (unitPower false).slots unitPowerArena .replaceAll = .ok P ∧
      P.catalog.predefined = [] ∧ P.results.kind = .search := by
  have hroots : (unitPowerForm false).polynomialRoots? {} 0 = none := by decide +kernel
  unfold Outcome.ofPass
  rw [solvePass_unitPower, solveEquation, bind_run]
  dsimp only [Stage.look, unitPowerCatalog]
  rw [hroots]
  exact ⟨_, rfl, rfl, rfl⟩

/-- The only pass over `x² = 1` solves it, with the discriminant behind the roots. -/
theorem exists_ofPass_unitSquare (simplifier : Simplifier) : ∃ P,
    Outcome.ofPass {} { simplifier } (unitPower true).slots unitPowerArena .replaceAll = .ok P ∧
      P.catalog.predefined = [] ∧ P.results.kind = .polynomial ∧
      P.results.solutions.length = 3 := by
  have hsize : ∀ q ∈ ([-1, 1, 4] : List Rat), |q| ≤ 10 ^ 300 := by decide +kernel
  have hroom : unitPowerArena.HasRoomFor
      ((Answer.ofRats [-1, 1, 4]).map (Answer.parts {})).sum := by
    have hparts (q : Rat) (hq : (Form.display {} (.ofRat q)).parts ≤ 2) :
        (Answer.exact (.ofRat q)).parts {} ≤ 10 :=
      (Answer.parts_exact_le {} _).trans (Nat.add_le_add_right hq 8)
    have hminus := hparts (-1) (by decide +kernel)
    have hone := hparts 1 (by decide +kernel)
    have hfour := hparts 4 (by decide +kernel)
    have hsize : unitPowerArena.size = 9 := rfl
    have hlimit : unitPowerArena.limit = 100 := rfl
    simp only [Answer.ofRats, List.map_cons, List.map_nil, List.sum_cons, List.sum_nil]
    unfold Arena.HasRoomFor
    omega
  obtain ⟨listed, B, hrun, hlength⟩ :=
    Solution.presentAll_run {} {} .noError (Answer.ofRats [-1, 1, 4]) [] hroom
  rw [Answer.length_filter_isShown {} hsize] at hlength
  unfold Outcome.ofPass
  rw [solvePass_unitPower, solveEquation, bind_run]
  dsimp only [Stage.look, unitPowerCatalog]
  rw [polynomialRoots?_unitPowerForm]
  dsimp only
  rw [bind_run]
  dsimp only [record, Stage.update]
  rw [listAnswers_run (by decide) rfl, hrun]
  exact ⟨_, rfl, rfl, rfl, hlength.trans (by decide +kernel)⟩

/-- The solve is over after its first pass. -/
theorem results_solve_unitPower (square : Bool) (simplifier : Simplifier) :
    let results := ((unitPower square).solve {} { simplifier } unitPowerArena).2.1.results
    results.kind = (if square then .polynomial else .search) ∧
      (square = true → results.solutions.length = 3) := by
  obtain ⟨P, hP, hnone, hkind, hlength⟩ : ∃ P,
      Outcome.ofPass {} { simplifier } (unitPower square).slots unitPowerArena .replaceAll = .ok P ∧
        P.catalog.predefined = [] ∧ P.results.kind = (if square then .polynomial else .search) ∧
        (square = true → P.results.solutions.length = 3) := by
    cases square with
    | false =>
      obtain ⟨P, hP, hnone, hkind⟩ := exists_ofPass_fifthUnitPower simplifier
      exact ⟨P, hP, hnone, hkind, nofun⟩
    | true =>
      obtain ⟨P, hP, hnone, hkind, hlength⟩ := exists_ofPass_unitSquare simplifier
      exact ⟨P, hP, hnone, hkind, fun _ => hlength⟩
  obtain ⟨i, hsolve⟩ := (unitPower square).exists_solve_eq_of_final (Γ := {})
    (A := unitPowerArena) hP (.inl hnone)
  rw [hsolve]
  exact ⟨hkind, hlength⟩

end EquationStore

namespace Session

/-- The equation `x² = 1`, or `x⁵ = 1`, in a session without definitions. -/
def unitPower (square : Bool) : Session := ⟨unitPowerArena, {}, .unitPower square⟩

/-- A solve, and what may follow while its results are there. -/
def solveAndSearch : List Operation :=
  [.solve { simplifier := .saturation }, .setBound 1 5, .search { simplifier := .saturation }]

theorem results_run_unitPower (square : Bool) :
    let results := ((unitPower square).run solveAndSearch).store.results
    results.kind = (if square then .polynomial else .search) ∧
      (square = true → results.solutions.length = 3) := by
  obtain ⟨hkind, hlength⟩ := EquationStore.results_solve_unitPower square .saturation
  let S := (unitPower square).perform (.solve { simplifier := .saturation })
  obtain ⟨hbound, hbound'⟩ := kind_perform (S := S) (.inl ⟨1, 5, rfl⟩)
  obtain ⟨hsearch, hsearch'⟩ := kind_perform (S := S.perform (.setBound 1 5))
    (.inr ⟨{ simplifier := .saturation }, rfl⟩)
  refine ⟨hsearch.trans (hbound.trans hkind), fun hsquare => ?_⟩
  exact (congrArg List.length (hsearch'.trans hbound')).trans (hlength hsquare)

/-- Behind a solve of `x⁵ = 1` bounds and searches are possible, and behind one of `x² = 1` the roots
are listed with their discriminant. -/
theorem consistent_run_unitPower :
    ((unitPower false).run []).Renews (.solve { simplifier := .saturation }) ∧
    ((unitPower false).run solveAndSearch).store.Consistent ∧
    ((unitPower false).run solveAndSearch).store.results.kind = .search ∧
    ((unitPower true).run []).Renews (.solve { simplifier := .saturation }) ∧
    ((unitPower true).run solveAndSearch).store.Consistent ∧
    ((unitPower true).run solveAndSearch).store.results.kind = .polynomial ∧
    ((unitPower true).run solveAndSearch).store.results.solutions.length = 3 :=
  ⟨trivial, consistent_run [] _ trivial, (results_run_unitPower false).1,
    trivial, consistent_run [] _ trivial, (results_run_unitPower true).1,
    (results_run_unitPower true).2 rfl⟩

end Session

end Resolvent

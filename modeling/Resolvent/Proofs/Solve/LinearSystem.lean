import Resolvent.Proofs.Form.Constant
import Resolvent.Proofs.Form.LinearCoefficients
import Resolvent.Proofs.Linear.Solutions
import Mathlib.Data.Fin.VecNotation
import Mathlib.Tactic.Linarith

/-!
# Rational linear systems

`LinearSystem.solveWith_iff` says that the linear stage **decides rational linear systems**: whatever
the magnitudes are, it answers that the equations contradict each other, or gives the solution,
or says that there are many, exactly when that is so.

Forms that are linear in the unknowns give a tableau of constants
(`LinearSystem.tableau_eq_map`), whose elimination is that of rational numbers, and the answer is
read off the reduced row echelon form (`LinearSystem.outcome_of_reduced`).
-/

namespace Resolvent

/-! ### Linear forms -/

namespace Form

/-- Each term is a constant or a multiple of one of the unknowns. -/
def IsLinearIn (unknowns : List Nat) (f : Form) : Prop :=
  ∀ t ∈ f.terms, t.1.factors = [] ∨ ∃ u ∈ unknowns, t.1.factors = [(.symbol u, 1)]

/-- The place of the unknown in a monomial of a linear form. -/
def place (unknowns : List Nat) (m : Monomial) : Option Nat :=
  match m.factors with
  | (.symbol u, _) :: _ => some (unknowns.idxOf u)
  | _ => none

/-- The sum of the coefficients of the terms at a place. -/
def sumAt (unknowns : List Nat) (terms : List (Monomial × Rat)) (p : Option Nat) : Rat :=
  ((terms.filter fun t => place unknowns t.1 == p).map Prod.snd).sum

variable {unknowns : List Nat}

theorem placeIn_symbol {u : Nat} (hu : u ∈ unknowns) :
    placeIn unknowns (.symbol u) = some (unknowns.idxOf u) := by
  have hmentions : (fun w => (Atom.symbol u).mentions w) = (· == u) := by
    funext w
    rw [Atom.mentions]
    exact BEq.comm
  rw [placeIn, hmentions]
  exact List.findIdx?_eq_some_of_exists ⟨u, hu, beq_self_eq_true u⟩

theorem linearPlace?_eq (hnodup : unknowns.Nodup) {m : Monomial}
    (hm : m.factors = [] ∨ ∃ u ∈ unknowns, m.factors = [(.symbol u, 1)]) :
    linearPlace? unknowns m.factors = some (place unknowns m) := by
  unfold place
  rcases hm with hm | ⟨u, hu, hm⟩
  · rw [hm]
    rfl
  · simp only [hm, linearPlace?, placeIn_symbol hu, count_eq_one hnodup hu, and_self, if_true]

theorem linearTerms?_eq (hnodup : unknowns.Nodup) {f : Form} (hf : f.IsLinearIn unknowns) :
    f.linearTerms? unknowns = some (f.terms.map fun t => (place unknowns t.1, t)) := by
  obtain ⟨terms⟩ := f
  unfold linearTerms?
  change ∀ t ∈ terms, _ at hf
  dsimp only
  induction terms with
  | nil => rfl
  | cons t terms ih =>
    rw [List.mapM_cons, linearPlace?_eq hnodup (hf t List.mem_cons_self),
      ih fun s hs => hf s (List.mem_cons_of_mem _ hs)]
    rfl

/-- The terms at a place add up to a constant. -/
theorem sumAll_at (unknowns : List Nat) {f : Form} (p : Option Nat)
    (rest : Monomial × Rat → Form) (sign : Rat)
    (hrest : ∀ t ∈ f.terms, place unknowns t.1 = p → rest t = ofRat (sign * t.2)) :
    sumAll (((f.terms.map fun t => (place unknowns t.1, t)).filter fun t => t.1 == p).map
      fun t => rest t.2) = ofRat (sign * sumAt unknowns f.terms p) := by
  have hmap : ((f.terms.map fun t => (place unknowns t.1, t)).filter fun t => t.1 == p).map
      (fun t => rest t.2) =
      (((f.terms.filter fun t => place unknowns t.1 == p).map Prod.snd).map (sign * ·)).map
        ofRat := by
    rw [List.filter_map, List.map_map, List.map_map, List.map_map]
    refine List.map_congr_left fun t ht => ?_
    obtain ⟨hmem, hplace⟩ := List.mem_filter.1 ht
    exact hrest t hmem (by simpa using hplace)
  rw [hmap, sumAll_ofRat, List.sum_map_mul_left, List.map_id', sumAt]

/-- The equation of a linear form has rational coefficients. -/
theorem linear?_eq (hnodup : unknowns.Nodup) {f : Form} (hf : f.IsLinearIn unknowns) :
    f.linear? unknowns = some
      { coefficients := unknowns.mapIdx fun i _ => ofRat (sumAt unknowns f.terms (some i))
        constant := ofRat (-sumAt unknowns f.terms none) } := by
  rw [linear?, linearTerms?_eq hnodup hf, Option.map_some]
  congr 2
  · refine List.mapIdx_eq_mapIdx_iff.2 fun i hi => ?_
    have hsum := sumAll_at unknowns (f := f) (some i)
      (fun t => ofTerm (t.1.without (.symbol unknowns[i])) t.2) 1 ?_
    · rw [hsum, one_mul]
    · intro t ht hplace
      rcases hf t ht with hm | ⟨u, hu, hm⟩
      · simp [place, hm] at hplace
      · -- the unknown at the place is that of the monomial, and nothing else is in it
        have hindex : unknowns.idxOf u = i := by simpa [place, hm] using hplace
        have hunknown : unknowns[i] = u := by
          subst hindex
          exact List.getElem_idxOf _
        simp [Monomial.without, hm, hunknown, ofTerm, ofRat, Monomial.one]
  · have hsum := sumAll_at unknowns (f := f) none (fun t => ofTerm t.1 (-t.2)) (-1) ?_
    · rw [hsum, neg_one_mul]
    · intro t ht hplace
      rcases hf t ht with hm | ⟨u, hu, hm⟩
      · obtain ⟨⟨factors⟩, q⟩ := t
        dsimp only at hm
        rw [hm, neg_one_mul]
        rfl
      · simp [place, hm] at hplace

end Form

namespace LinearSystem

open Form

variable {unknowns : List Nat}

/-! ### Values -/

/-- The values of the unknowns. -/
def assignment (unknowns : List Nat) (x : Fin unknowns.length → Rat) : Atom → Rat
  | .symbol u => if h : unknowns.idxOf u < unknowns.length then x ⟨unknowns.idxOf u, h⟩ else 0
  | _ => 0

/-- The values of the unknowns make all forms zero. -/
def Solves (forms : List Form) (unknowns : List Nat) (x : Fin unknowns.length → Rat) : Prop :=
  ∀ f ∈ forms, f.value (assignment unknowns x) = 0

theorem sumAt_cons (t : Monomial × Rat) (terms : List (Monomial × Rat)) (p : Option Nat) :
    sumAt unknowns (t :: terms) p =
      (if place unknowns t.1 = p then t.2 else 0) + sumAt unknowns terms p := by
  by_cases h : place unknowns t.1 = p
  · simp [sumAt, h]
  · simp [sumAt, h]

theorem termsValue_eq (x : Fin unknowns.length → Rat) {terms : List (Monomial × Rat)}
    (hterms : ∀ t ∈ terms, t.1.factors = [] ∨ ∃ u ∈ unknowns, t.1.factors = [(.symbol u, 1)]) :
    termsValue (assignment unknowns x) terms =
      ∑ j : Fin unknowns.length, sumAt unknowns terms (some j.val) * x j +
        sumAt unknowns terms none := by
  induction terms with
  | nil => simp [sumAt, termsValue_nil]
  | cons t terms ih =>
    have hsplit : ∀ p, sumAt unknowns (t :: terms) p =
        (if place unknowns t.1 = p then t.2 else 0) + sumAt unknowns terms p := sumAt_cons t terms
    rw [termsValue_cons, ih fun s hs => hterms s (List.mem_cons_of_mem _ hs)]
    simp only [hsplit, add_mul, Finset.sum_add_distrib]
    rcases hterms t List.mem_cons_self with hm | ⟨u, hu, hm⟩
    · -- a constant adds to the sum at no place
      have hplace : place unknowns t.1 = none := by simp [place, hm]
      simp only [hplace, Monomial.value, hm, Monomial.factorsValue_nil, Rat.cast_id, if_pos,
        reduceCtorEq, if_false, zero_mul, Finset.sum_const_zero]
      ring
    · have hindex := List.idxOf_lt_length_iff.2 hu
      have hplace : place unknowns t.1 = some (unknowns.idxOf u) := by simp [place, hm]
      -- an unknown adds to the sum at its own place only
      have hsingle : ∑ j : Fin unknowns.length,
          (if place unknowns t.1 = some j.val then t.2 else 0) * x j =
            t.2 * x ⟨unknowns.idxOf u, hindex⟩ := by
        rw [Finset.sum_eq_single ⟨unknowns.idxOf u, hindex⟩]
        · rw [hplace, if_pos rfl]
        · intro j _ hne
          rw [hplace, if_neg, zero_mul]
          exact fun heq => hne (Fin.ext (Option.some.inj heq).symm)
        · exact fun hnot => absurd (Finset.mem_univ _) hnot
      rw [hsingle]
      simp only [hplace, Monomial.value, hm, Monomial.factorsValue_cons, Monomial.factorsValue_nil,
        assignment, hindex, dif_pos, zpow_one, mul_one, Rat.cast_id, reduceCtorEq, if_false]
      ring

/-! ### The tableau -/

/-- The tableau of the coefficients and constants of linear forms. -/
def rationalTableau (unknowns : List Nat) (forms : List Form) (m : Nat) (hm : m = forms.length) :
    Tableau Rat m (unknowns.length + 1) :=
  ⟨Vector.ofFn fun i => Vector.ofFn fun j =>
    if j.val < unknowns.length then sumAt unknowns forms[i].terms (some j.val)
    else -sumAt unknowns forms[i].terms none⟩

theorem entry_rationalTableau (forms : List Form) {m : Nat} (hm : m = forms.length) (i : Fin m)
    (j : Fin (unknowns.length + 1)) :
    (rationalTableau unknowns forms m hm).entry i j =
      if j.val < unknowns.length then sumAt unknowns forms[i].terms (some j.val)
      else -sumAt unknowns forms[i].terms none := by
  simp [rationalTableau, Tableau.entry]

/-- The equation of a linear form. -/
def equationOf (unknowns : List Nat) (f : Form) : LinearEquation :=
  { coefficients := unknowns.mapIdx fun i _ => ofRat (sumAt unknowns f.terms (some i))
    constant := ofRat (-sumAt unknowns f.terms none) }

/-- The tableau of linear forms is one of constants. -/
theorem tableau_eq_map (unknowns : List Nat) (forms : List Form) :
    tableau unknowns.length (forms.map (equationOf unknowns)) =
      (rationalTableau unknowns forms _ (List.length_map _)).map ofRat := by
  refine Tableau.ext_entry fun i j => ?_
  have hentry : (tableau unknowns.length (forms.map (equationOf unknowns))).entry i j =
      (row unknowns.length (equationOf unknowns forms[i]))[j] := by
    simp [tableau, Tableau.entry]
  rw [hentry, Tableau.entry_map, entry_rationalTableau, Fin.getElem_fin, row, Vector.getElem_ofFn]
  simp only [equationOf]
  split
  · next hj => simp [hj]
  · rfl

theorem solves_rationalTableau {forms : List Form} (hlinear : ∀ f ∈ forms, f.IsLinearIn unknowns)
    {m : Nat} (hm : m = forms.length) (x : Fin unknowns.length → Rat) :
    (rationalTableau unknowns forms m hm).Solves x ↔ Solves forms unknowns x := by
  have hrow : ∀ i : Fin m,
      (∑ j : Fin unknowns.length,
        (rationalTableau unknowns forms m hm).entry i j.castSucc * x j =
          (rationalTableau unknowns forms m hm).entry i (Fin.last _)) ↔
      forms[i].value (assignment unknowns x) = 0 := by
    intro i
    rw [Form.value, termsValue_eq x (hlinear forms[i] (List.getElem_mem _))]
    simp only [entry_rationalTableau, Fin.val_castSucc, Fin.is_lt, if_true, Fin.val_last,
      lt_irrefl, if_false]
    exact ⟨fun h => by rw [h]; ring, fun h => by linear_combination h⟩
  constructor
  · intro h f hf
    obtain ⟨i, hi, rfl⟩ := List.getElem_of_mem hf
    exact (hrow ⟨i, hm ▸ hi⟩).1 (h _)
  · exact fun h i => (hrow i).2 (h _ (List.getElem_mem _))

/-! ### The answer -/

section

variable {m n : Nat} {A : Tableau Rat m (n + 1)} {pivots : List (Fin (n + 1))}

theorem any_isContradiction_iff (h : A.Reduced pivots 0) :
    (List.finRange m).any (isContradiction (A.map ofRat)) = true ↔ Fin.last n ∈ pivots := by
  rw [h.last_mem_iff, List.any_eq_true]
  simp [isContradiction, Tableau.entry_map, isZero_ofRat]

/-- The answer that a reduced tableau gives: whether the equations contradict each other, and if not,
whether there is a single solution, and which. -/
theorem outcome_of_reduced (h : A.Reduced pivots 0) :
    (outcome (A.map ofRat) pivots.length = .inconsistent ∧ ∀ x, ¬ A.Solves x) ∨
    (∃ x, outcome (A.map ofRat) pivots.length = .unique (List.ofFn fun k => ofRat (x k)) ∧
      0 < n ∧ A.Solves x ∧ ∀ y, A.Solves y → y = x) ∨
    (outcome (A.map ofRat) pivots.length = .underdetermined ∧ (∃ x, A.Solves x) ∧
      ¬ (0 < n ∧ ∃ x, A.Solves x ∧ ∀ y, A.Solves y → y = x)) := by
  have hcontradiction := any_isContradiction_iff h
  unfold outcome
  by_cases hlast : Fin.last n ∈ pivots
  · rw [if_pos (hcontradiction.2 hlast)]
    exact .inl ⟨rfl, h.not_solves hlast⟩
  · rw [if_neg fun hany => hlast (hcontradiction.1 hany)]
    obtain ⟨x₀, hx₀, -⟩ := h.exists_solves hlast fun _ => 0
    split
    · next hrank =>
      obtain ⟨hlength, hn⟩ := hrank
      -- as many pivots as unknowns
      have hsolves := h.solves_iff hlength hlast
      refine .inr (.inl ⟨x₀, ?_, hn, hx₀, fun y hy => ?_⟩)
      · have hm : n ≤ m := hlength ▸ h.length_le
        congr 1
        refine List.ext_getElem (by simpa using hm) fun k hk hk' => ?_
        have hkn : k < n := by simpa using hk'
        simp [Tableau.entry_map, (hsolves x₀).1 hx₀ ⟨k, hkn⟩]
      · funext k
        rw [(hsolves y).1 hy k, (hsolves x₀).1 hx₀ k]
    · next hrank =>
      refine .inr (.inr ⟨rfl, ⟨x₀, hx₀⟩, ?_⟩)
      rintro ⟨hn, x, hx, hunique⟩
      -- fewer pivots, so that two solutions differ
      have hle := Tableau.length_le_of_last_notMem h.sorted hlast
      obtain ⟨y, z, hy, hz, hne⟩ := h.exists_ne (by omega) hlast
      exact hne ((hunique y hy).trans (hunique z hz).symm)

end

theorem mapM_linear?_eq (hnodup : unknowns.Nodup) {forms : List Form}
    (hlinear : ∀ f ∈ forms, f.IsLinearIn unknowns) :
    (forms.mapM fun f => f.linear? unknowns) = some (forms.map (equationOf unknowns)) := by
  induction forms with
  | nil => rfl
  | cons f forms ih =>
    rw [List.mapM_cons, linear?_eq hnodup (hlinear f List.mem_cons_self),
      ih fun g hg => hlinear g (List.mem_cons_of_mem _ hg)]
    rfl

/-- The three answers, and what each means. -/
theorem solveWith_cases (magnitude : Form → Float) {forms : List Form} (hnodup : unknowns.Nodup)
    (hlinear : ∀ f ∈ forms, f.IsLinearIn unknowns) :
    (solveWith magnitude forms unknowns = .inconsistent ∧ ∀ x, ¬ Solves forms unknowns x) ∨
    (∃ x, solveWith magnitude forms unknowns = .unique (List.ofFn fun k => ofRat (x k)) ∧
      0 < unknowns.length ∧ Solves forms unknowns x ∧ ∀ y, Solves forms unknowns y → y = x) ∨
    (solveWith magnitude forms unknowns = .underdetermined ∧ (∃ x, Solves forms unknowns x) ∧
      ¬ (0 < unknowns.length ∧ ∃ x, Solves forms unknowns x ∧
        ∀ y, Solves forms unknowns y → y = x)) := by
  have hm : (forms.map (equationOf unknowns)).length = forms.length := List.length_map _
  obtain ⟨pivots, hrank, hreduced, hspace⟩ :=
    Tableau.exists_reduced (magnitude ∘ ofRat) (rationalTableau unknowns forms _ hm)
  have hsolve : solveWith magnitude forms unknowns =
      outcome (((rationalTableau unknowns forms _ hm).reducedRowEchelon
        (magnitude ∘ ofRat)).1.map ofRat) pivots.length := by
    rw [solveWith, mapM_linear?_eq hnodup hlinear]
    dsimp only
    rw [tableau_eq_map, Tableau.reducedRowEchelon_map scalarMap_ofRat, hrank]
  have hsolves : ∀ x, ((rationalTableau unknowns forms _ hm).reducedRowEchelon
      (magnitude ∘ ofRat)).1.Solves x ↔ Solves forms unknowns x := fun x =>
    (Tableau.solves_congr hspace x).trans (solves_rationalTableau hlinear hm x)
  have hcases := outcome_of_reduced hreduced
  simp only [hsolves] at hcases
  rw [hsolve]
  exact hcases

/-- **Linear systems are decided**: whatever the magnitudes are, the answer says whether the equations
contradict each other, and if not, whether there is a single solution, and which. -/
theorem solveWith_iff (magnitude : Form → Float) {forms : List Form} {unknowns : List Nat}
    (hnodup : unknowns.Nodup) (hlinear : ∀ f ∈ forms, f.IsLinearIn unknowns) :
    (solveWith magnitude forms unknowns = .inconsistent ↔
      ¬ ∃ x, Solves forms unknowns x) ∧
    (∀ values, solveWith magnitude forms unknowns = .unique values ↔
      0 < unknowns.length ∧ ∃ x, Solves forms unknowns x ∧
        (∀ y, Solves forms unknowns y → y = x) ∧ values = List.ofFn fun k => ofRat (x k)) ∧
    (solveWith magnitude forms unknowns = .underdetermined ↔
      (∃ x, Solves forms unknowns x) ∧
        ¬ (0 < unknowns.length ∧ ∃ x, Solves forms unknowns x ∧
          ∀ y, Solves forms unknowns y → y = x)) := by
  rcases solveWith_cases magnitude hnodup hlinear with
    ⟨hanswer, hnone⟩ | ⟨x, hanswer, hn, hx, hunique⟩ | ⟨hanswer, ⟨x, hx⟩, hmany⟩
  · rw [hanswer]
    refine ⟨⟨fun _ ⟨x, hx⟩ => hnone x hx, fun _ => rfl⟩, fun values => ⟨nofun, ?_⟩, nofun, ?_⟩
    · rintro ⟨-, x, hx, -⟩
      exact absurd hx (hnone x)
    · rintro ⟨⟨x, hx⟩, -⟩
      exact absurd hx (hnone x)
  · rw [hanswer]
    refine ⟨⟨nofun, fun hnone => absurd ⟨x, hx⟩ hnone⟩, fun values => ⟨fun heq => ?_, ?_⟩, nofun, ?_⟩
    · exact ⟨hn, x, hx, hunique, (LinearOutcome.unique.inj heq).symm⟩
    · rintro ⟨-, y, hy, -, rfl⟩
      rw [hunique y hy]
    · exact fun hmany => absurd ⟨hn, x, hx, hunique⟩ hmany.2
  · rw [hanswer]
    refine ⟨⟨nofun, fun hnone => absurd ⟨x, hx⟩ hnone⟩, fun values => ⟨nofun, ?_⟩,
      fun _ => ⟨⟨x, hx⟩, hmany⟩, fun _ => rfl⟩
    rintro ⟨hn, y, hy, hunique, -⟩
    exact absurd ⟨hn, y, hy, hunique⟩ hmany

/-- The sum of two unknowns is three and their difference is one. -/
def sumAndDifference : List Form :=
  [⟨[(⟨[]⟩, -3), (⟨[(.symbol 0, 1)]⟩, 1), (⟨[(.symbol 1, 1)]⟩, 1)]⟩,
    ⟨[(⟨[]⟩, -1), (⟨[(.symbol 0, 1)]⟩, 1), (⟨[(.symbol 1, 1)]⟩, -1)]⟩]

/-- The unknowns are two and one. -/
theorem solveWith_sumAndDifference :
    [0, 1].Nodup ∧ (∀ f ∈ sumAndDifference, f.IsLinearIn [0, 1]) ∧
    solve sumAndDifference [0, 1] = .unique [ofRat 2, ofRat 1] := by
  have hnodup : [0, 1].Nodup := by decide
  have hlinear : ∀ f ∈ sumAndDifference, f.IsLinearIn [0, 1] := by
    intro f hf t ht
    rcases List.mem_pair.1 hf with rfl | rfl <;>
      simp only [List.mem_cons, List.not_mem_nil, or_false] at ht <;>
      rcases ht with rfl | rfl | rfl <;> simp
  -- both equations, solved by hand
  have hsolves : ∀ x : Fin 2 → Rat, Solves sumAndDifference [0, 1] x ↔ x 0 = 2 ∧ x 1 = 1 := by
    intro x
    have hvalues : Solves sumAndDifference [0, 1] x ↔
        -3 + (x 0 + x 1) = 0 ∧ -1 + (x 0 + -x 1) = 0 := by
      simp [Solves, sumAndDifference, Form.value, termsValue, Monomial.value,
        Monomial.factorsValue, assignment, List.idxOf_cons]
    rw [hvalues]
    constructor
    · rintro ⟨hsum, hdifference⟩
      constructor <;> linarith
    · rintro ⟨h₀, h₁⟩
      rw [h₀, h₁]
      norm_num
  refine ⟨hnodup, hlinear, ?_⟩
  refine ((solveWith_iff magnitude hnodup hlinear).2.1 _).2 ⟨by decide, ![2, 1], ?_, ?_, rfl⟩
  · exact (hsolves _).2 ⟨rfl, rfl⟩
  · intro y hy
    exact funext (Fin.forall_fin_two.2 ((hsolves y).1 hy))

end LinearSystem

end Resolvent

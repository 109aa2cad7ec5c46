import Resolvent.Proofs.Form.Laurent
import Mathlib.Algebra.Polynomial.BigOperators
import Mathlib.Algebra.Polynomial.Roots
import Mathlib.Analysis.Complex.Polynomial.Basic

/-!
# Laurent polynomials without zeros

A Laurent polynomial that is zero under no assignment is a single monomial up to a coefficient made
of rational numbers and the imaginary unit (`Form.IsLaurent.without_eq`).  Along a curve on which
each indeterminate is a whole power of one variable, with weights that tell the monomials apart
(`exists_weight`), the form is a Laurent polynomial in one variable, and a polynomial with two
different terms has a root other than zero (`exponents_eq_of_ne_zero`).

So the inverse of such a form needs one conjugate at most, and is a Laurent polynomial again
(`Form.IsLaurent.inverseWith`).
-/

namespace Resolvent

open Polynomial

/-! ### One variable -/

section OneVariable

variable {α : Type*} (a : α → ℂ) (k : α → ℤ)

/-- The polynomial that a sum of powers is, up to the power of its smallest exponent. -/
noncomputable def shiftedPolynomial (n : ℤ) (terms : List α) : ℂ[X] :=
  (terms.map fun t => C (a t) * X ^ (k t - n).toNat).sum

theorem coeff_shiftedPolynomial {n : ℤ} {terms : List α} (hn : ∀ t ∈ terms, n ≤ k t) (j : ℕ) :
    (shiftedPolynomial a k n terms).coeff j =
      ((terms.filter fun t => k t = n + j).map a).sum := by
  unfold shiftedPolynomial
  induction terms with
  | nil => simp
  | cons t terms ih =>
    obtain ⟨ht, htail⟩ := List.forall_mem_cons.1 hn
    rw [List.map_cons, List.sum_cons, coeff_add, ih htail, coeff_C_mul_X_pow]
    by_cases h : k t = n + j
    · have hj : j = (k t - n).toNat := by omega
      rw [List.filter_cons_of_pos (by simpa using h), if_pos hj, List.map_cons, List.sum_cons]
    · have hj : j ≠ (k t - n).toNat := by omega
      rw [List.filter_cons_of_neg (by simpa using h), if_neg hj, zero_add]

theorem eval_shiftedPolynomial {n : ℤ} {terms : List α} (hn : ∀ t ∈ terms, n ≤ k t) {x : ℂ}
    (hx : x ≠ 0) : (shiftedPolynomial a k n terms).eval x * x ^ n =
      (terms.map fun t => a t * x ^ k t).sum := by
  unfold shiftedPolynomial
  induction terms with
  | nil => simp
  | cons t terms ih =>
    obtain ⟨ht, htail⟩ := List.forall_mem_cons.1 hn
    have hpow : x ^ (k t - n).toNat * x ^ n = x ^ k t := by
      rw [← zpow_natCast, Int.toNat_of_nonneg (by omega), ← zpow_add₀ hx, sub_add_cancel]
    rw [List.map_cons, List.sum_cons, eval_add, add_mul, ih htail, eval_C_mul, eval_pow, eval_X,
      mul_assoc, hpow, List.map_cons, List.sum_cons]

/-- A sum of powers without zeros, in which no power cancels, has a single power. -/
theorem exponents_eq_of_ne_zero {terms : List α}
    (hclass : ∀ t ∈ terms, ((terms.filter fun u => k u = k t).map a).sum ≠ 0)
    (h : ∀ x : ℂ, x ≠ 0 → (terms.map fun t => a t * x ^ k t).sum ≠ 0) :
    ∀ s ∈ terms, ∀ t ∈ terms, k s = k t := by
  intro s hs
  obtain ⟨m, hm, hmin⟩ := Set.exists_min_image {t | t ∈ terms} k (List.finite_toSet terms) ⟨s, hs⟩
  have hmin : ∀ t ∈ terms, k m ≤ k t := hmin
  have hcoeff : ∀ t ∈ terms, (shiftedPolynomial a k (k m) terms).coeff (k t - k m).toNat ≠ 0 := by
    intro t ht
    have hle := hmin t ht
    rw [coeff_shiftedPolynomial a k hmin,
      show k m + ((k t - k m).toNat : ℤ) = k t by omega]
    exact hclass t ht
  -- a larger exponent makes the degree positive, and a root is not zero
  have hall : ∀ t ∈ terms, k t = k m := by
    intro t ht
    by_contra hne
    have hle := hmin t ht
    have hdegree : (shiftedPolynomial a k (k m) terms).degree ≠ 0 := by
      intro hzero
      exact hcoeff t ht (coeff_eq_zero_of_degree_lt (by rw [hzero]; exact_mod_cast (by omega)))
    obtain ⟨x, hx⟩ := IsAlgClosed.exists_root _ hdegree
    have hx0 : x ≠ 0 := by
      rintro rfl
      rw [IsRoot.def, ← coeff_zero_eq_eval_zero] at hx
      have hfirst := hcoeff m hm
      rw [sub_self, Int.toNat_zero] at hfirst
      exact hfirst hx
    refine h x hx0 ?_
    rw [← eval_shiftedPolynomial a k hmin hx0, hx.eq_zero, zero_mul]
  exact fun t ht => (hall s hs).trans (hall t ht).symm

end OneVariable

/-! ### Weights -/

/-- The number of an indeterminate. -/
def Indeterminate.index : Indeterminate → ℕ
  | .pi => 0
  | .e => 1
  | .symbol id => id + 2

theorem Indeterminate.index_injective : Function.Injective index := by
  intro b c h
  cases b <;> cases c <;> simp_all [index]

/-- A power of a variable for an atom, another one for each indeterminate. -/
noncomputable def Atom.position : Atom → ℤ[X]
  | .symbol id => X ^ (id + 2)
  | .pi => 1
  | .e => X
  | _ => 0

theorem Indeterminate.position_atom (b : Indeterminate) : b.atom.position = X ^ b.index := by
  cases b with
  | symbol id => rfl
  | pi => exact (pow_zero X).symm
  | e => exact (pow_one X).symm

namespace Monomial

variable {m l : Monomial}

/-- The exponents of the indeterminates, as the coefficients of a polynomial. -/
noncomputable def position (m : Monomial) : ℤ[X] :=
  (m.factors.map fun x => C x.2 * x.1.position).sum

theorem coeff_position (h : ∀ x ∈ m.factors, x.1.IsBasic) (b : Indeterminate) :
    m.position.coeff b.index = exponentSum b.atom m.factors := by
  obtain ⟨factors⟩ := m
  unfold position
  induction factors with
  | nil => simp [exponentSum_nil]
  | cons x factors ih =>
    obtain ⟨hx, htail⟩ := List.forall_mem_cons.1 h
    rw [List.map_cons, List.sum_cons, coeff_add, ih htail, exponentSum_cons, coeff_C_mul]
    congr 1
    rcases hx.eq_or with hunit | ⟨c, hc⟩
    · have hne : Atom.imaginaryUnit ≠ b.atom := by cases b <;> nofun
      rw [hunit, if_neg hne]
      exact mul_eq_zero_of_right _ (coeff_zero _)
    · rw [hc, Indeterminate.position_atom, coeff_X_pow]
      by_cases hbc : b.index = c.index
      · rw [Indeterminate.index_injective hbc, if_pos rfl, if_pos rfl, mul_one]
      · have hne : c.atom ≠ b.atom := by
          intro heq
          exact hbc (by cases b <;> cases c <;> simp_all [Indeterminate.atom])
        rw [if_neg hbc, if_neg hne, mul_zero]

theorem IsLaurent.without (h : m.IsLaurent) (a : Atom) : (m.without a).IsLaurent :=
  have hmem : ∀ x ∈ (m.without a).factors, x ∈ m.factors := fun _ hx => (List.mem_filter.1 hx).1
  ⟨⟨h.arranged.sorted.filter _, fun x hx => h.arranged.exponents x (hmem x hx),
    fun hq hr => h.arranged.roots (hmem _ hq) (hmem _ hr)⟩, fun x hx => h.basic x (hmem x hx)⟩

/-- The exponents of the indeterminates are those of a monomial without the imaginary unit. -/
theorem IsLaurent.without_eq (hm : m.IsLaurent) (hl : l.IsLaurent)
    (h : m.position = l.position) : m.without .imaginaryUnit = l.without .imaginaryUnit := by
  have hsub : ∀ {m l : Monomial}, m.IsLaurent → l.IsLaurent → m.position = l.position →
      ∀ x ∈ (m.without .imaginaryUnit).factors, x ∈ (l.without .imaginaryUnit).factors := by
    intro m l hm hl h x hx
    obtain ⟨hx, hunit⟩ := List.mem_filter.1 hx
    obtain ⟨b, hb⟩ := (hm.basic x hx).eq_or.resolve_left (by simpa using hunit)
    have hsum := exponentSum_eq_of_mem hm.arranged.sorted.pairwise_ne hx
    rw [hb, ← coeff_position hm.basic, h, coeff_position hl.basic, ← hb] at hsum
    exact List.mem_filter.2 ⟨(mem_iff_exponentSum hl.arranged.sorted.pairwise_ne
      (hm.arranged.ne_zero hx)).2 hsum, hunit⟩
  exact congrArg Monomial.mk ((hm.without _).arranged.sorted.eq_of_mem_iff
    (hl.without _).arranged.sorted fun x => ⟨hsub hm hl h x, hsub hl hm h.symm x⟩)

end Monomial

/-- There are weights that tell all monomials of a list apart. -/
theorem exists_weight (ms : List Monomial) : ∃ N : ℤ, ∀ m ∈ ms, ∀ l ∈ ms,
    m.position.eval N = l.position.eval N → m.position = l.position := by
  classical
  let differences := ((ms.product ms).map fun x => x.1.position - x.2.position).filter (· ≠ 0)
  have hne : differences.prod ≠ 0 := by
    refine List.prod_ne_zero fun hzero => ?_
    simpa using (List.mem_filter.1 hzero).2
  obtain ⟨N, hN⟩ : ∃ N : ℤ, differences.prod.eval N ≠ 0 := by
    by_contra! h
    exact hne (Polynomial.funext fun N => by rw [h N, eval_zero])
  refine ⟨N, fun m hm l hl heq => ?_⟩
  by_contra hml
  have hmem : m.position - l.position ∈ differences :=
    List.mem_filter.2 ⟨List.mem_map.2 ⟨(m, l), List.mem_product.2 ⟨hm, hl⟩, rfl⟩,
      by simpa using sub_ne_zero.2 hml⟩
  refine hN ?_
  rw [eval_list_prod]
  refine List.prod_eq_zero (List.mem_map.2 ⟨_, hmem, ?_⟩)
  rw [eval_sub, heq, sub_self]

/-- Every indeterminate is the power of one number whose exponent is its weight. -/
noncomputable def Assignment.ofWeight (N : ℤ) (x : ℂˣ) : Assignment := fun b => x ^ N ^ b.index

theorem Monomial.value_ofWeight {m : Monomial} (h : ∀ x ∈ m.factors, x.1.IsBasic)
    (hunit : ∀ x ∈ m.factors, x.1 ≠ .imaginaryUnit) (N : ℤ) (x : ℂˣ) :
    m.value (Assignment.ofWeight N x).valuation = (x : ℂ) ^ m.position.eval N := by
  obtain ⟨factors⟩ := m
  simp only [value, position]
  induction factors with
  | nil => simp [factorsValue_nil]
  | cons y factors ih =>
    obtain ⟨hy, htail⟩ := List.forall_mem_cons.1 h
    obtain ⟨hne, hrest⟩ := List.forall_mem_cons.1 hunit
    obtain ⟨b, hb⟩ := hy.eq_or.resolve_left hne
    rw [factorsValue_cons, ih htail hrest, List.map_cons, List.sum_cons, eval_add,
      zpow_add₀ x.ne_zero, hb, Assignment.valuation_atom, Assignment.ofWeight,
      Indeterminate.position_atom, eval_C_mul, eval_pow, eval_X, mul_comm y.2, zpow_mul,
      Units.val_zpow_eq_zpow_val]

theorem Monomial.without_eq_self (m : Monomial) {a : Atom} (h : ∀ x ∈ m.factors, x.1 ≠ a) :
    m.without a = m := by
  obtain ⟨factors⟩ := m
  exact congrArg Monomial.mk (List.filter_eq_self.2 fun x hx => by simpa using h x hx)

namespace Monomial.IsLaurent

variable {m : Monomial} (h : m.IsLaurent)

include h

/-- The imaginary unit occurs once at most. -/
theorem unitReduced : m.UnitReduced := by
  refine ⟨h.arranged.sorted.pairwise_ne, fun x hx hunit => ?_, fun x hx => ?_⟩
  · have hfits := h.arranged.exponents x hx
    obtain ⟨a, k⟩ := x
    subst hunit
    exact hfits
  · have hbasic := h.basic x hx
    obtain ⟨a, k⟩ := x
    cases a with
    | symbol id => exact .symbol id
    | pi => exact .pi
    | e => exact .e
    | imaginaryUnit => exact .imaginaryUnit
    | _ => exact hbasic.elim

theorem exponentOf : m.exponentOf .imaginaryUnit = 0 ∨ m.exponentOf .imaginaryUnit = 1 :=
  Form.exponentOf_of_unitReduced h.unitReduced

theorem without_of_exponentOf (hzero : m.exponentOf .imaginaryUnit = 0) :
    m.without .imaginaryUnit = m := by
  refine m.without_eq_self fun x hx hunit => ?_
  unfold Monomial.exponentOf at hzero
  split at hzero
  · next y k hfind =>
    have hone : k = 1 := h.unitReduced.exponent _ (List.mem_of_find?_eq_some hfind)
      (by simpa using List.find?_some hfind)
    omega
  · next hfind => exact List.find?_eq_none.1 hfind x hx (by simpa using hunit)

/-- The value is a power of the imaginary unit times a product of indeterminates. -/
theorem value_eq (z : Assignment) : m.value z.valuation =
    Complex.I ^ m.exponentOf .imaginaryUnit * (m.without .imaginaryUnit).value z.valuation := by
  rw [Monomial.value_without _ h.arranged.sorted.pairwise_ne .imaginaryUnit,
    z.valuation_imaginaryUnit]

/-- What is left without the imaginary unit has the conjugate value at conjugate arguments. -/
theorem conj_value (z : Assignment) :
    starRingEnd ℂ ((m.without .imaginaryUnit).value z.conj.valuation) =
      (m.without .imaginaryUnit).value z.valuation := by
  rw [Monomial.map_value]
  refine Monomial.value_congr fun x hx => ?_
  obtain ⟨hx, hunit⟩ := List.mem_filter.1 hx
  obtain ⟨b, hb⟩ := (h.basic x hx).eq_or.resolve_left (by simpa using hunit)
  rw [hb, Assignment.valuation_atom, Assignment.valuation_atom]
  exact Complex.conj_conj _

end Monomial.IsLaurent

namespace Form

variable {f g : Form}

/-! ### Single monomials -/

/-- The coefficient of a term, with the imaginary unit if it occurs. -/
noncomputable def gaussian (t : Monomial × Rat) : ℂ :=
  t.2 * Complex.I ^ t.1.exponentOf .imaginaryUnit

namespace IsLaurent

/-- The terms with a property make a Laurent polynomial. -/
theorem filter (hf : f.IsLaurent) (p : Monomial × Rat → Bool) :
    IsLaurent ⟨f.terms.filter p⟩ :=
  ⟨hf.sorted.filter _, fun t ht => hf.terms t (List.mem_filter.1 ht).1⟩

theorem value_eq (hf : f.IsLaurent) (z : Assignment) : f.value z.valuation =
    (f.terms.map fun t => gaussian t * (t.1.without .imaginaryUnit).value z.valuation).sum := by
  rw [value, termsValue]
  refine congrArg List.sum (List.map_congr_left fun t ht => ?_)
  rw [(hf.terms t ht).2.value_eq, gaussian, mul_assoc]

/-- Terms whose monomials differ in the imaginary unit only do not cancel. -/
theorem sum_gaussian_ne_zero (hf : f.IsLaurent) (hne : f ≠ zero) {u : Monomial}
    (hu : ∀ t ∈ f.terms, t.1.without .imaginaryUnit = u) : (f.terms.map gaussian).sum ≠ 0 := by
  intro hzero
  refine hne (hf.eq_zero_of_value fun z => ?_)
  have hterms : f.terms.map (fun t => gaussian t * (t.1.without .imaginaryUnit).value z.valuation) =
      f.terms.map fun t => gaussian t * u.value z.valuation :=
    List.map_congr_left fun t ht => by rw [hu t ht]
  rw [hf.value_eq, hterms, List.sum_map_mul_right, hzero, zero_mul]

/-- **A Laurent polynomial without zeros is a single monomial**, up to the imaginary unit. -/
theorem without_eq (hf : f.IsLaurent) (h : ∀ z : Assignment, f.value z.valuation ≠ 0) :
    ∀ s ∈ f.terms, ∀ t ∈ f.terms,
      s.1.without .imaginaryUnit = t.1.without .imaginaryUnit := by
  obtain ⟨N, hN⟩ := exists_weight (f.terms.map fun t => t.1.without .imaginaryUnit)
  let k : Monomial × Rat → ℤ := fun t => (t.1.without .imaginaryUnit).position.eval N
  have htwice : ∀ m : Monomial, (m.without .imaginaryUnit).without .imaginaryUnit =
      m.without .imaginaryUnit := fun m => by simp [Monomial.without]
  have hbase : ∀ s ∈ f.terms, ∀ t ∈ f.terms, k s = k t →
      s.1.without .imaginaryUnit = t.1.without .imaginaryUnit := by
    intro s hs t ht heq
    have hposition := hN _ (List.mem_map_of_mem hs) _ (List.mem_map_of_mem ht) heq
    have hwithout := ((hf.terms s hs).2.without .imaginaryUnit).without_eq
      ((hf.terms t ht).2.without .imaginaryUnit) hposition
    rwa [htwice, htwice] at hwithout
  refine fun s hs t ht => hbase s hs t ht
    (exponents_eq_of_ne_zero gaussian k (fun u hu => ?_) (fun x hx => ?_) s hs t ht)
  · -- the terms of one weight have one monomial
    refine (hf.filter fun t => k t = k u).sum_gaussian_ne_zero (fun hzero => ?_)
      (u := u.1.without .imaginaryUnit) fun t ht => ?_
    · have hmem : u ∈ (⟨f.terms.filter fun t => k t = k u⟩ : Form).terms :=
        List.mem_filter.2 ⟨hu, by simp⟩
      rw [hzero] at hmem
      cases hmem
    · obtain ⟨ht, heq⟩ := List.mem_filter.1 ht
      exact hbase t ht u hu (by simpa using heq)
  · have hvalue := h (Assignment.ofWeight N (Units.mk0 x hx))
    rw [hf.value_eq] at hvalue
    refine fun hzero => hvalue
      (Eq.trans (congrArg List.sum (List.map_congr_left fun t ht => ?_)) hzero)
    rw [Monomial.value_ofWeight ((hf.terms t ht).2.without _).basic
      (fun y hy => by simpa using (List.mem_filter.1 hy).2), Units.val_mk0]

end IsLaurent

/-! ### Conjugates -/

/-- The form with the opposite of the imaginary unit in place of it. -/
def unitConjugate (f : Form) : Form :=
  ⟨f.terms.map fun t => (t.1, if t.1.exponentOf .imaginaryUnit = 0 then t.2 else -t.2)⟩

/-- The conjugate has conjugate values at conjugate arguments. -/
theorem IsLaurent.value_unitConjugate (hf : f.IsLaurent) (z : Assignment) :
    f.unitConjugate.value z.valuation = starRingEnd ℂ (f.value z.conj.valuation) := by
  rw [hf.value_eq, map_list_sum, List.map_map, unitConjugate, value, termsValue, List.map_map]
  refine congrArg List.sum (List.map_congr_left fun t ht => ?_)
  have hm := (hf.terms t ht).2
  simp only [Function.comp_apply]
  rw [map_mul, hm.conj_value, hm.value_eq, gaussian, ← mul_assoc]
  congr 1
  rcases hm.exponentOf with h | h
  · simp [h]
  · simp [h, Complex.conj_I]

/-- The imaginary unit is the only atom of a Laurent polynomial that a conjugate is taken in. -/
theorem IsLaurent.quadraticUnit? (hf : f.IsLaurent) {u : Atom} (hu : f.quadraticUnit? = some u) :
    u = .imaginaryUnit := by
  obtain ⟨t, ht, hfind⟩ := List.exists_of_findSome?_eq_some hu
  obtain ⟨x, hx, rfl⟩ := Option.map_eq_some_iff.1 hfind
  have hquadratic := List.find?_some hx
  have hbasic := (hf.terms t ht).2.basic x (List.mem_of_find?_eq_some hx)
  obtain ⟨a, k⟩ := x
  cases a with
  | imaginaryUnit => rfl
  | root | radical => exact hbasic.elim
  | _ => cases hquadratic

theorem without_of_quadraticUnit? (h : f.quadraticUnit? = none) {t : Monomial × Rat}
    (ht : t ∈ f.terms) : t.1.without .imaginaryUnit = t.1 := by
  have hnone := List.findSome?_eq_none_iff.1 h t ht
  rw [Option.map_eq_none_iff, List.find?_eq_none] at hnone
  refine t.1.without_eq_self fun x hx hunit => hnone x hx ?_
  rw [hunit]
  rfl

/-- A form other than zero whose monomials are all the same is a single term. -/
theorem exists_singleTerm? (hsorted : f.Sorted) (hne : f ≠ zero)
    (h : ∀ s ∈ f.terms, ∀ t ∈ f.terms, s.1 = t.1) : ∃ t, f.singleTerm? = some t := by
  obtain ⟨terms⟩ := f
  cases terms with
  | nil => exact absurd rfl hne
  | cons s terms =>
    cases terms with
    | nil => exact ⟨s, rfl⟩
    | cons t terms =>
      have hlt := (List.pairwise_cons.1 hsorted).1 t List.mem_cons_self
      rw [h s List.mem_cons_self t (by simp), Monomial.order_self] at hlt
      cases hlt

theorem ne_zero_of_value {v : Atom → ℂ} (h : f.value v ≠ 0) : f ≠ zero := by
  rintro rfl
  exact h (value_zero v)

namespace IsLaurent

/-- A Laurent polynomial without zeros and without the imaginary unit is a single term. -/
theorem exists_singleTerm? (hf : f.IsLaurent) (h : ∀ z : Assignment, f.value z.valuation ≠ 0)
    (hunit : ∀ t ∈ f.terms, t.1.without .imaginaryUnit = t.1) : ∃ t, f.singleTerm? = some t :=
  Form.exists_singleTerm? hf.sorted (ne_zero_of_value (h 1)) fun s hs t ht => by
    rw [← hunit s hs, hf.without_eq h s hs t ht, hunit t ht]

/-- A Laurent polynomial with conjugate values at conjugate arguments has no imaginary unit. -/
theorem without_of_conj (hf : f.IsLaurent)
    (h : ∀ z : Assignment, starRingEnd ℂ (f.value z.conj.valuation) = f.value z.valuation) :
    ∀ t ∈ f.terms, t.1.without .imaginaryUnit = t.1 := by
  intro t ht
  have hconj : f.unitConjugate.IsLaurent := by
    refine ⟨hf.sorted.map, fun s hs => ?_⟩
    obtain ⟨r, hr, rfl⟩ := List.mem_map.1 hs
    refine ⟨?_, (hf.terms r hr).2⟩
    dsimp only
    split
    · exact (hf.terms r hr).1
    · exact neg_ne_zero.2 (hf.terms r hr).1
  have heq : f.unitConjugate = f := hconj.eq_of_value hf fun z => by
    rw [hf.value_unitConjugate, h]
  have hterms := congrArg Form.terms heq
  rw [unitConjugate, ← List.map_id f.terms, List.map_map, List.map_inj_left] at hterms
  obtain ⟨hq, hm⟩ := hf.terms t ht
  refine hm.without_of_exponentOf ?_
  by_contra hne
  have hsnd := congrArg Prod.snd (hterms t ht)
  simp only [Function.comp_apply, id_eq, if_neg hne] at hsnd
  exact hq (by linarith)

/-- The product with the conjugate is a single term. -/
theorem exists_singleTerm?_mulWith {n : Nat} (hf : f.IsLaurent)
    (h : ∀ z : Assignment, f.value z.valuation ≠ 0) (hg : f.rationalizingConjugate? = some g)
    (hwithin : MulWithin InRange f g) :
    ∃ t, (Form.mulWith (normalize n) f g).singleTerm? = some t := by
  obtain ⟨u, hu, hconj⟩ := Option.map_eq_some_iff.1 hg
  obtain rfl := hf.quadraticUnit? hu
  have hvalue : ∀ z : Assignment, (Form.mulWith (normalize n) f g).value z.valuation =
      f.value z.valuation * starRingEnd ℂ (f.value z.conj.valuation) := by
    intro z
    rw [(soundOn_normalize n).value_mulWith
      (hwithin.admits z.valuation_ne_zero hf (hf.conjugate hg) n), ← hf.value_unitConjugate,
      ← hconj]
    rfl
  refine (hf.mulWith (hf.conjugate hg) n).exists_singleTerm? (fun z => ?_)
    ((hf.mulWith (hf.conjugate hg) n).without_of_conj fun z => ?_)
  · rw [hvalue]
    exact mul_ne_zero (h z) ((map_ne_zero_iff _ (starRingEnd ℂ).injective).2 (h z.conj))
  · rw [hvalue, hvalue, map_mul, Complex.conj_conj, z.conj_conj, mul_comm]

/-- The inverse of a single term. -/
theorem inverseWith_of_singleTerm? {n budget : Nat} {i : Form} (hf : f.IsLaurent)
    (hterm : ∃ t, f.singleTerm? = some t)
    (hwithin : InverseWithin InRange (normalize n) budget f)
    (hi : Form.inverseWith (normalize n) budget f = some i) :
    i.IsLaurent ∧ ∀ z : Assignment, i.value z.valuation * f.value z.valuation = 1 := by
  obtain ⟨⟨m, q⟩, hm⟩ := hterm
  have hzero : f.isZero = false := by simp [isZero, terms_of_singleTerm? hm]
  have hinverse : i = normalize n q⁻¹ (m.scaleExponents (-1)) ∧
      InRange q⁻¹ (m.scaleExponents (-1)) := by
    have hne : ¬ f.isZero = true := by simp [hzero]
    cases budget with
    | zero =>
      rw [Form.inverseWith, if_neg hne, hm] at hi
      rw [InverseWithin, hm] at hwithin
      exact ⟨(Option.some.inj hi).symm, hwithin.resolve_left hne⟩
    | succ budget =>
      rw [Form.inverseWith, if_neg hne, hm] at hi
      rw [InverseWithin, hm] at hwithin
      exact ⟨(Option.some.inj hi).symm, hwithin.resolve_left hne⟩
  obtain ⟨rfl, hrange⟩ := hinverse
  have hbasic := hf.isBasic_scaleExponents hm (-1)
  exact ⟨isLaurent_normalize n _ hbasic, fun z => (soundOn_normalize n).value_single_inverse
    hf.terms.noZeros hm (hrange.admits z.valuation_ne_zero hbasic n)⟩

/-- **The inverse of a Laurent polynomial without zeros is one again**, and its values are the
inverse ones. -/
theorem inverseWith {n : Nat} {i : Form} (hf : f.IsLaurent)
    (h : ∀ z : Assignment, f.value z.valuation ≠ 0)
    (hwithin : InverseWithin InRange (normalize n) maxRationalizations f)
    (hi : Form.inverseWith (normalize n) maxRationalizations f = some i) :
    i.IsLaurent ∧ ∀ z : Assignment, i.value z.valuation * f.value z.valuation = 1 := by
  rcases hterm : f.singleTerm? with - | t
  · -- a sum has the imaginary unit in it, and its conjugate makes a single term of it
    obtain ⟨c, hc⟩ : ∃ c, f.rationalizingConjugate? = some c := by
      rcases hu : f.quadraticUnit? with - | u
      · obtain ⟨t, ht⟩ := hf.exists_singleTerm? h fun t ht => without_of_quadraticUnit? hu ht
        rw [hterm] at ht
        cases ht
      · exact ⟨_, Option.map_eq_some_iff.2 ⟨u, hu, rfl⟩⟩
    have hzero : ¬ f.isZero = true := fun hzero => ne_zero_of_value (h 1) (isZero_iff.1 hzero)
    rw [maxRationalizations, Form.inverseWith, if_neg hzero] at hi
    have hwithin := hwithin.resolve_left hzero
    simp only [hterm, hc] at hi hwithin
    obtain ⟨hmul, hrest, hlast⟩ := hwithin
    have hcl := hf.conjugate hc
    have hproduct := hf.exists_singleTerm?_mulWith (n := n) h hc hmul
    obtain ⟨j, hj⟩ : ∃ j, Form.inverseWith (normalize n) 3 (Form.mulWith (normalize n) f c) =
        some j := by
      obtain ⟨t, ht⟩ := hproduct
      have hzero : (Form.mulWith (normalize n) f c).isZero = false := by
        simp [isZero, terms_of_singleTerm? ht]
      exact ⟨normalize n t.2⁻¹ (t.1.scaleExponents (-1)), by simp [Form.inverseWith, hzero, ht]⟩
    simp only [hj, Option.some.injEq] at hi hlast
    subst hi
    obtain ⟨hjl, hjvalue⟩ := (hf.mulWith hcl n).inverseWith_of_singleTerm? hproduct hrest hj
    refine ⟨hcl.mulWith hjl n, fun z => ?_⟩
    have hz := hjvalue z
    rw [(soundOn_normalize n).value_mulWith (hmul.admits z.valuation_ne_zero hf hcl n)] at hz
    rw [(soundOn_normalize n).value_mulWith (hlast.admits z.valuation_ne_zero hcl hjl n)]
    linear_combination hz
  · exact hf.inverseWith_of_singleTerm? ⟨t, hterm⟩ hwithin hi

end IsLaurent

end Form

end Resolvent

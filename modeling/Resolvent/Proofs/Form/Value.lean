import Resolvent.Proofs.Form.Closed
import Mathlib.Algebra.BigOperators.Group.List.Basic
import Mathlib.Algebra.BigOperators.Ring.List
import Mathlib.Algebra.Field.Basic
import Mathlib.Algebra.GroupWithZero.Basic
import Mathlib.Data.Rat.Cast.CharZero
import Mathlib.Tactic.LinearCombination
import Mathlib.Tactic.Ring

/-!
# The value of a form

Values of the atoms in a field give a product of atoms and a form their values.  Merging ordered
terms does not depend on the order being kept: sums, opposites and multiples have the values they
should have for any lists of terms (`Form.value_add`, `Form.value_neg`, `Form.value_scale`,
`Form.value_sumAll`), and so has a list of factors whose exponents are added up
(`Monomial.factorsValue_collectFactors`), provided no atom in it has the value zero.
-/

namespace Resolvent

variable {K : Type*} [Field K] (v : Atom → K)

namespace Monomial

/-- The product of the powers of atoms. -/
def factorsValue (factors : List (Atom × Int)) : K := (factors.map fun x => v x.1 ^ x.2).prod

/-- The value of a monomial. -/
def value (m : Monomial) : K := factorsValue v m.factors

theorem factorsValue_nil : factorsValue v [] = 1 := rfl

theorem factorsValue_cons (x : Atom × Int) (factors : List (Atom × Int)) :
    factorsValue v (x :: factors) = v x.1 ^ x.2 * factorsValue v factors := by
  simp [factorsValue]

theorem factorsValue_append (xs ys : List (Atom × Int)) :
    factorsValue v (xs ++ ys) = factorsValue v xs * factorsValue v ys := by
  simp [factorsValue]

theorem value_eq_one_of_isOne {m : Monomial} (h : m.isOne = true) : m.value v = 1 := by
  have : m.factors = [] := by simpa [isOne] using h
  rw [value, this, factorsValue_nil]

variable {v}

theorem factorsValue_ne_zero {factors : List (Atom × Int)} (h : ∀ x ∈ factors, v x.1 ≠ 0) :
    factorsValue v factors ≠ 0 := by
  induction factors with
  | nil => simp [factorsValue_nil]
  | cons x factors ih =>
    rw [factorsValue_cons]
    exact mul_ne_zero (zpow_ne_zero _ (h x List.mem_cons_self))
      (ih fun y hy => h y (List.mem_cons_of_mem _ hy))

theorem factorsValue_insertFactor {a : Atom} (ha : v a ≠ 0) (k : Int)
    (factors : List (Atom × Int)) :
    factorsValue v (insertFactor a k factors) = v a ^ k * factorsValue v factors := by
  induction factors with
  | nil => simp [insertFactor, factorsValue_cons]
  | cons x factors ih =>
    obtain ⟨b, l⟩ := x
    rw [insertFactor]
    split
    · rw [factorsValue_cons]
    · next heq =>
      rw [Atom.order_eq_iff] at heq
      subst heq
      rw [factorsValue_cons, factorsValue_cons, zpow_add₀ ha]
      ring
    · rw [factorsValue_cons, ih, factorsValue_cons]
      ring

theorem factorsValue_foldl_insertFactor {factors : List (Atom × Int)}
    (h : ∀ x ∈ factors, v x.1 ≠ 0) (sorted : List (Atom × Int)) :
    factorsValue v (factors.foldl (fun sorted x => insertFactor x.1 x.2 sorted) sorted) =
      factorsValue v sorted * factorsValue v factors := by
  induction factors generalizing sorted with
  | nil => simp [factorsValue_nil]
  | cons x factors ih =>
    rw [List.foldl_cons, ih fun y hy => h y (List.mem_cons_of_mem _ hy),
      factorsValue_insertFactor (h x List.mem_cons_self), factorsValue_cons]
    ring

theorem factorsValue_filter_ne_zero (factors : List (Atom × Int)) :
    factorsValue v (factors.filter fun x => x.2 != 0) = factorsValue v factors := by
  induction factors with
  | nil => rfl
  | cons x factors ih =>
    by_cases hx : x.2 = 0
    · simp [hx, factorsValue_cons, ih]
    · simp [hx, factorsValue_cons, ih]

/-- Adding up exponents keeps the value. -/
theorem factorsValue_collectFactors {factors : List (Atom × Int)}
    (h : ∀ x ∈ factors, v x.1 ≠ 0) :
    factorsValue v (collectFactors factors) = factorsValue v factors := by
  rw [collectFactors, factorsValue_filter_ne_zero, factorsValue_foldl_insertFactor h,
    factorsValue_nil, one_mul]

variable (v) in
theorem factorsValue_scaleExponents (m : Monomial) (k : Int) :
    factorsValue v (m.scaleExponents k) = m.value v ^ k := by
  obtain ⟨factors⟩ := m
  simp only [scaleExponents, value]
  induction factors with
  | nil => simp [factorsValue_nil]
  | cons x factors ih =>
    rw [List.map_cons, factorsValue_cons, factorsValue_cons, ih, mul_zpow, zpow_mul]

theorem factorsValue_eq_one {factors : List (Atom × Int)} (h : ∀ x ∈ factors, v x.1 = 1) :
    factorsValue v factors = 1 := by
  refine List.prod_eq_one fun z hz => ?_
  obtain ⟨x, hx, rfl⟩ := List.mem_map.1 hz
  rw [h x hx, one_zpow]

/-- Where all atoms but one have the value one, a product is the power of that atom. -/
theorem factorsValue_eq_of_mem {x : Atom × Int} {factors : List (Atom × Int)}
    (h : factors.Pairwise fun x y => x.1 ≠ y.1) (hx : x ∈ factors)
    (hone : ∀ y ∈ factors, y.1 ≠ x.1 → v y.1 = 1) : factorsValue v factors = v x.1 ^ x.2 := by
  induction factors with
  | nil => cases hx
  | cons y factors ih =>
    obtain ⟨hy, htail⟩ := List.pairwise_cons.1 h
    have hrest := fun z hz => hone z (List.mem_cons_of_mem _ hz)
    rw [factorsValue_cons]
    rcases List.mem_cons.1 hx with rfl | hx
    · rw [factorsValue_eq_one fun z hz => hrest z hz (hy z hz).symm, mul_one]
    · rw [hone y List.mem_cons_self (hy x hx), ih htail hx hrest, one_zpow, one_mul]

end Monomial

namespace Form

/-- The sum of the values of terms. -/
def termsValue (terms : List (Monomial × Rat)) : K :=
  (terms.map fun t => (t.2 : K) * t.1.value v).sum

/-- The value of a form. -/
def value (f : Form) : K := termsValue v f.terms

theorem termsValue_nil : termsValue v [] = 0 := rfl

theorem termsValue_cons (t : Monomial × Rat) (terms : List (Monomial × Rat)) :
    termsValue v (t :: terms) = t.2 * t.1.value v + termsValue v terms := by
  simp [termsValue]

theorem value_zero : zero.value v = 0 := rfl

theorem value_ofTerm (m : Monomial) (q : Rat) : (ofTerm m q).value v = q * m.value v := by
  unfold ofTerm
  split
  · next h => simp [h, value_zero]
  · simp [value, termsValue]

theorem value_ofRat (q : Rat) : (ofRat q).value v = q := by
  unfold ofRat
  split
  · next h => simp [h, value_zero]
  · simp [value, termsValue, Monomial.one, Monomial.value, Monomial.factorsValue_nil]

theorem value_one : one.value v = 1 := by rw [one, value_ofRat, Rat.cast_one]

theorem toRat?_eq_some {f : Form} {q : Rat} (h : f.toRat? = some q) : f.value v = q := by
  obtain ⟨terms⟩ := f
  unfold toRat? at h
  split at h
  · next hnil =>
    simp only at hnil
    cases h
    simp [value, hnil, termsValue_nil]
  · next m r hsingle =>
    simp only at hsingle
    split at h
    · next hm =>
      cases h
      simp [value, hsingle, termsValue_cons, termsValue_nil, Monomial.value_eq_one_of_isOne v hm]
    · cases h
  · cases h

theorem value_eq_one_of_isOne {f : Form} (h : f.isOne = true) : f.value v = 1 := by
  have h1 : f.toRat? = some 1 := by simpa [isOne] using h
  rw [toRat?_eq_some v h1, Rat.cast_one]

theorem terms_of_singleTerm? {f : Form} {t : Monomial × Rat} (h : f.singleTerm? = some t) :
    f.terms = [t] := by
  unfold singleTerm? at h
  split at h
  · next s hs =>
    cases h
    exact hs
  · cases h

theorem value_singleTerm {f : Form} {m : Monomial} {q : Rat} (h : f.singleTerm? = some (m, q)) :
    f.value v = q * m.value v := by
  simp [value, terms_of_singleTerm? h, termsValue_cons, termsValue_nil]

/-! ### Sums -/

theorem termsValue_neg (terms : List (Monomial × Rat)) :
    termsValue v (terms.map fun t => (t.1, -t.2)) = -termsValue v terms := by
  induction terms with
  | nil => simp [termsValue_nil]
  | cons t terms ih =>
    rw [List.map_cons, termsValue_cons, termsValue_cons, ih]
    push_cast
    ring

theorem value_neg (f : Form) : (neg f).value v = -f.value v := termsValue_neg v f.terms

variable [CharZero K]

theorem termsValue_mergeTerm (m : Monomial) (q : Rat)
    {rest : List (Monomial × Rat) → List (Monomial × Rat)} {r : K}
    (hrest : ∀ ys, termsValue v (rest ys) = r + termsValue v ys) (ys : List (Monomial × Rat)) :
    termsValue v (mergeTerm m q rest ys) = q * m.value v + r + termsValue v ys := by
  induction ys with
  | nil => rw [mergeTerm, termsValue_cons, hrest, add_assoc]
  | cons t ys ih =>
    obtain ⟨n, s⟩ := t
    rw [mergeTerm]
    split
    · rw [termsValue_cons, hrest, add_assoc]
    · next heq =>
      rw [Monomial.order_eq_iff] at heq
      subst heq
      split
      · next hsum =>
        -- the coefficients cancel, and the term goes
        have hcast : (q : K) + s = 0 := by rw [← Rat.cast_add, hsum, Rat.cast_zero]
        rw [hrest, termsValue_cons]
        linear_combination -(m.value v) * hcast
      · rw [termsValue_cons, hrest, termsValue_cons]
        push_cast
        ring
    · rw [termsValue_cons, ih, termsValue_cons]
      ring

theorem termsValue_mergeTerms (xs ys : List (Monomial × Rat)) :
    termsValue v (mergeTerms xs ys) = termsValue v xs + termsValue v ys := by
  induction xs generalizing ys with
  | nil => simp [mergeTerms, termsValue_nil]
  | cons t xs ih =>
    rw [mergeTerms, termsValue_mergeTerm v t.1 t.2 ih, termsValue_cons]

theorem value_add (f g : Form) : (add f g).value v = f.value v + g.value v :=
  termsValue_mergeTerms v f.terms g.terms

theorem value_sub (f g : Form) : (sub f g).value v = f.value v - g.value v := by
  rw [sub, value_add, value_neg, sub_eq_add_neg]

theorem value_scale (f : Form) (k : Rat) : (scale f k).value v = k * f.value v := by
  unfold scale
  split
  · next h => simp [h, value_zero]
  · obtain ⟨terms⟩ := f
    simp only [value]
    induction terms with
    | nil => simp [termsValue_nil]
    | cons t terms ih =>
      rw [List.map_cons, termsValue_cons, ih, termsValue_cons]
      push_cast
      ring

theorem value_addPairs (fs : List Form) :
    ((addPairs fs).map (value v)).sum = (fs.map (value v)).sum := by
  fun_induction addPairs fs with
  | case1 f g rest ih => simp [value_add, ih, add_assoc]
  | case2 => rfl

theorem value_foldl_add (fs : List Form) (start : Form) :
    (fs.foldl add start).value v = start.value v + (fs.map (value v)).sum := by
  induction fs generalizing start with
  | nil => simp
  | cons f fs ih => rw [List.foldl_cons, ih, value_add, List.map_cons, List.sum_cons, add_assoc]

theorem value_sumLoop (fuel : Nat) (fs : List Form) :
    (sumLoop fuel fs).value v = (fs.map (value v)).sum := by
  fun_induction sumLoop fuel fs with
  | case1 => simp [value_zero]
  | case2 => simp
  | case3 fs => simp [value_foldl_add, value_zero]
  | case4 fuel fs _ _ ih => rw [ih, value_addPairs]

theorem value_sumAll (fs : List Form) : (sumAll fs).value v = (fs.map (value v)).sum :=
  value_sumLoop v fs.length fs

end Form

end Resolvent

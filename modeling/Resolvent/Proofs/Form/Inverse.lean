import Resolvent.Proofs.Form.Numbers
import Resolvent.Proofs.Form.Reachable
import Resolvent.Proofs.Form.Twist
import Mathlib.Data.Nat.Squarefree

/-!
# Inverses of numbers

A number is made of the circle number, Euler's number, the imaginary unit and roots.  If conjugates
make its denominator rational, the product with the inverse is one as a form; if not, the inverse is
left as a reciprocal of a sum, and the product is another form, though its value is one.
`Form.mul_inverse?_eq_one_iff` says that nothing else can happen.

The product has the value one under all twists of a valuation, and a number is known by its values
under twists (`Form.eq_of_value_twist`).
-/

namespace Resolvent

open PerfectPower (TrialBase)

variable {P B : Nat}

/-- The radicands of a number are free of perfect powers. -/
theorem Monomial.IsNumber.powerFree (hP : TrialBase P) {m : Monomial} (h : m.IsNumber P B) :
    m.PowerFree := by
  refine ⟨h.normal.arranged, fun {q n k} hmem => ?_⟩
  have hnormal := h.normal.atoms _ hmem
  obtain ⟨-, u, rfl, hu⟩ := h.atoms _ hmem
  cases hnormal with
  | root hq hone hlow hhigh hextract =>
    have hu0 : u ≠ 0 := by
      rintro rfl
      simp at hq
    have hu1 : u ≠ 1 := by
      rintro rfl
      simp at hone
    refine ⟨hlow, u, rfl, by omega, fun p hp hdvd => ?_⟩
    have hle := (hp.pow_dvd_iff_le_factorization (pow_pos hP.pos _).ne').1 (hdvd.trans hu)
    rw [Nat.factorization_pow, Finsupp.smul_apply, smul_eq_mul] at hle
    have hfree := hP.squarefree.natFactorization_le_one p
    have := Nat.mul_le_mul_left (n - 1) hfree
    omega

namespace Form

variable {f g : Form}

/-! ### Equality -/

theorem eq_of_mergeTerms_eq_nil {xs ys : List (Monomial × Rat)}
    (h : mergeTerms xs ys = []) : ys = xs.map fun t => (t.1, -t.2) := by
  induction xs generalizing ys with
  | nil => exact h
  | cons x xs ih =>
    obtain ⟨m, q⟩ := x
    rw [mergeTerms] at h
    cases ys with
    | nil => cases h
    | cons y ys =>
      obtain ⟨l, r⟩ := y
      rw [mergeTerm] at h
      split at h
      · cases h
      · next heq =>
        obtain rfl := Monomial.order_eq_iff.1 heq
        split at h
        · next hsum =>
          rw [List.map_cons, ← ih h, eq_neg_of_add_eq_zero_right hsum]
        · cases h
      · cases h

theorem eq_of_sub_eq_zero (h : sub f g = zero) : f = g := by
  obtain ⟨xs⟩ := f
  obtain ⟨ys⟩ := g
  have hmap := eq_of_mergeTerms_eq_nil (Form.mk.inj h)
  have hinjective : Function.Injective fun t : Monomial × Rat => (t.1, -t.2) := by
    rintro ⟨m, q⟩ ⟨l, r⟩ heq
    obtain ⟨hm, hq⟩ := Prod.mk.inj heq
    exact Prod.ext hm (neg_inj.1 hq)
  rw [show ys = xs from List.map_injective_iff.2 hinjective hmap]

/-- **Numbers are known by their values** under all twists of a valuation. -/
theorem eq_of_value_twist (hP : TrialBase P) {v : Valuation ℂ} (hpi : v .pi ≠ 0) (he : v .e ≠ 0)
    (hf : f.Sorted) (hg : g.Sorted) (hf' : f.Over (Monomial.IsNumber P B))
    (hg' : g.Over (Monomial.IsNumber P B))
    (h : ∀ t : Twist ℂ, f.value (v.twist t) = g.value (v.twist t)) : f = g := by
  refine eq_of_sub_eq_zero (eq_zero_of_value_twist (v := v) (hf.sub hg)
    ((hf'.sub hg').imp fun m hm => ⟨hm.powerFree hP, ?_⟩) fun t => ?_)
  · refine Monomial.factorsValue_ne_zero fun x hx => ?_
    have hnumber := hm.atoms x hx
    have hproper := (hm.normal.atoms x hx).proper
    obtain ⟨a, k⟩ := x
    cases a with
    | pi => exact hpi
    | e => exact he
    | imaginaryUnit => exact v.imaginaryUnit_ne_zero
    | root q n => exact v.root_ne_zero hproper.1 hproper.2.1
    | _ => exact hnumber.elim
  · rw [value_sub, h t, sub_self]

/-! ### The inverse of a number -/

theorem isNumber_one (P B : Nat) : one.Over (Monomial.IsNumber P B) :=
  over_ofRat ⟨Monomial.normal_one 0, nofun, nofun⟩ 1

/-- A normal form whose atoms are constants is a number. -/
theorem IsNormal.over_isNumber (hf : f.IsNormal)
    (h : ∀ t ∈ f.terms, ∀ x ∈ t.1.factors, x.1.IsNumber P ∧ x.2.natAbs ≤ B) :
    f.Over (Monomial.IsNumber P B) := by
  have hdepth : f.depth ≤ 0 := depth_le_iff.2 fun t ht x hx => depth_le_of_isNumber (h t ht x hx).1
  exact fun t ht => ⟨(hf.over hdepth t ht).1, (hf.over hdepth t ht).2,
    fun x hx => (h t ht x hx).1, fun x hx => (h t ht x hx).2⟩

theorem pi_ne_zero_of_unitValuation : unitValuation .pi ≠ 0 := by
  change Atom.principal _ _ _ ≠ 0
  rw [Atom.principal]
  exact Complex.ofReal_ne_zero.2 Real.pi_ne_zero

theorem e_ne_zero_of_unitValuation : unitValuation .e ≠ 0 := by
  change Atom.principal _ _ _ ≠ 0
  rw [Atom.principal]
  exact Complex.ofReal_ne_zero.2 (Real.exp_ne_zero 1)

/-- The product of a number with an inverse that is a number is one. -/
theorem mul_eq_one_of_isRational (hP : TrialBase P) (hB : 1 ≤ B) (hBC : B + C ≤ 2147483647)
    (hf : f.Over (Monomial.IsNumber P B)) (hg : f.inverse? = some g)
    (h : IsRational P C (unfoldings f.depth) maxRationalizations f g) :
    mul f g = one ∧ g ≠ zero := by
  obtain ⟨hover, hwithin⟩ := h
  have hvalue : ∀ v : Valuation ℂ, v .pi ≠ 0 → v .e ≠ 0 →
      (mul f g).value v = 1 ∧ g ≠ zero := by
    intro v hpi he
    have hinverse := value_mul_inverse? hf.noZeros (hwithin hpi he) hg
    refine ⟨?_, ?_⟩
    · rw [value_mul (mulWithin_of_isNumber hpi he hBC hf hover _), mul_comm, hinverse]
    · rintro rfl
      rw [value_zero, zero_mul] at hinverse
      exact zero_ne_one hinverse
  have htwist : ∀ (a : Atom) (t : Twist ℂ), unitValuation a ≠ 0 → unitValuation.twist t a ≠ 0 :=
    fun a t ha => mul_ne_zero ha (t a).ne_zero
  refine ⟨?_, (hvalue _ pi_ne_zero_of_unitValuation e_ne_zero_of_unitValuation).2⟩
  refine eq_of_value_twist hP pi_ne_zero_of_unitValuation e_ne_zero_of_unitValuation
    (sorted_mulWith (sorted_normalize _) f g) (sorted_ofTerm _ _)
    (over_mulWith_of_isNumber hP hB hBC hf hover _) (isNumber_one P _) fun t => ?_
  rw [(hvalue _ (htwist _ t pi_ne_zero_of_unitValuation)
    (htwist _ t e_ne_zero_of_unitValuation)).1, value_one]

theorem not_over_hasReciprocal_one : ¬ one.Over Monomial.HasReciprocal := by
  intro h
  obtain ⟨i, k, hmem⟩ := (h (Monomial.one, 1) (List.mem_singleton_self _)).2.reciprocal
  cases hmem

/-- **The inverse of a number is an inverse as a form exactly if it has no reciprocal.**  The radicands
of the number are made of the primes of `P`, and its exponents are below `2 ^ 26`. -/
theorem mul_inverse?_eq_one_iff (hP : TrialBase P) (hf : f.IsNormal) (hne : f ≠ zero)
    (hnumber : ∀ t ∈ f.terms, ∀ x ∈ t.1.factors, x.1.IsNumber P ∧ x.2.natAbs < 2 ^ 26) :
    ∃ g, f.inverse? = some g ∧
      (mul f g = one ↔ ∃ t ∈ g.terms, ∀ i k, (.reciprocal i, k) ∉ t.1.factors) := by
  have hover : f.Over (Monomial.IsNumber P 67108863) :=
    hf.over_isNumber fun t ht x hx => ⟨(hnumber t ht x hx).1, by
      have := (hnumber t ht x hx).2
      omega⟩
  obtain ⟨g, hg⟩ := exists_inverse? hne
  refine ⟨g, hg, ?_⟩
  rcases inverseWith_of_isNumber hP (by decide) (by decide) hover hg with hrational | hreciprocal
  · obtain ⟨hone, hne⟩ := mul_eq_one_of_isRational hP (by decide) (by decide) hover hg hrational
    obtain ⟨t, ht⟩ := List.exists_mem_of_ne_nil g.terms fun hnil => hne (by
      obtain ⟨terms⟩ := g
      exact congrArg Form.mk hnil)
    exact ⟨fun _ => ⟨t, ht, fun i k hi => (hrational.1 t ht).2.atoms _ hi⟩, fun _ => hone⟩
  · constructor
    · intro hone
      exact absurd (hone ▸ hasReciprocal_mulWith hover hreciprocal _) not_over_hasReciprocal_one
    · rintro ⟨t, ht, hnone⟩
      obtain ⟨i, k, hi⟩ := (hreciprocal t ht).2.reciprocal
      exact absurd hi (hnone i k)

/-- The sum of one and the square roots of two and three. -/
def sumOfRoots : Form := add one (add (ofAtom (.root 2 2)) (ofAtom (.root 3 2)))

theorem sumOfRoots_eq : sumOfRoots =
    ⟨[(⟨[]⟩, 1), (⟨[(.root 2 2, 1)]⟩, 1), (⟨[(.root 3 2, 1)]⟩, 1)]⟩ := by decide +kernel

theorem trialBase_six : TrialBase 6 where
  squarefree := by decide +kernel
  lt_trialLimit := fun p _ hdvd => (Nat.le_of_dvd (by decide) hdvd).trans_lt (by decide)

theorem isNumber_sumOfRoots : ∀ t ∈ sumOfRoots.terms, ∀ x ∈ t.1.factors,
    x.1.IsNumber 6 ∧ x.2.natAbs < 2 ^ 26 := by
  have htwo : (Atom.root 2 2).IsNumber 6 := ⟨by decide, 2, by norm_num, by decide⟩
  have hthree : (Atom.root 3 2).IsNumber 6 := ⟨by decide, 3, by norm_num, by decide⟩
  rw [sumOfRoots_eq]
  simp [htwo, hthree]

/-- Two conjugates make the denominator of `1 / (1 + √2 + √3)` rational. -/
theorem mul_inverse?_sumOfRoots :
    TrialBase 6 ∧ sumOfRoots.IsNormal ∧ sumOfRoots ≠ zero ∧
      (∀ t ∈ sumOfRoots.terms, ∀ x ∈ t.1.factors, x.1.IsNumber 6 ∧ x.2.natAbs < 2 ^ 26) ∧
      ∃ g, sumOfRoots.inverse? = some g ∧ mul sumOfRoots g = one := by
  have hproper : ∀ {q : Rat}, 0 < q → (Atom.root q 2).Proper :=
    fun hq => ⟨hq, le_rfl, by decide⟩
  have hnormal : sumOfRoots.IsNormal := (isNormal_ofRat 1).add
    ((isNormal_ofAtom (hproper (by decide))).add (isNormal_ofAtom (hproper (by decide))))
  have hne : sumOfRoots ≠ zero := by decide +kernel
  refine ⟨trialBase_six, hnormal, hne, isNumber_sumOfRoots, ?_⟩
  obtain ⟨g, hg, hiff⟩ := mul_inverse?_eq_one_iff trialBase_six hnormal hne isNumber_sumOfRoots
  refine ⟨g, hg, hiff.2 ?_⟩
  have hexplicit : sumOfRoots.inverse? =
      some ⟨[(⟨[]⟩, 1 / 2), (⟨[(.root 2 2, 1)]⟩, 1 / 4), (⟨[(.root 6 2, 1)]⟩, -1 / 4)]⟩ := by
    decide +kernel
  obtain rfl := Option.some.inj (hg.symm.trans hexplicit)
  exact ⟨_, List.mem_cons_self, nofun⟩

/-- No conjugate helps with the inverse of `1 + π`. -/
theorem divide?_onePlusPi_ne :
    (add one (ofAtom .pi)).divide? (add one (ofAtom .pi)) ≠ some one := by decide +kernel

end Form

end Resolvent

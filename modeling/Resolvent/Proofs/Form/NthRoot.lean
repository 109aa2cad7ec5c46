import Resolvent.Proofs.Form.Power
import Resolvent.Proofs.Form.Stored
import Resolvent.Proofs.Form.Terms

/-!
# Roots of all forms

`Form.root` returns roots of every form that can be made, for every index and under all preferences
(`Form.root_spec`): under any valuation that gives radicals the values of roots of their radicands,
the power of the answer has the value of the form.  Other atoms than radicals may have any values,
zero as well.  Two answers need more.  In the square root of `a + bi` two roots of rational numbers
stand side by side, and where a denominator does not fit 128 bits they are radicals, whose signs have
to belong together (`Valuation.PairsRoots`).  The exponents of the circle number and of Euler's number
are divided by the index as a word of 32 bits.  `Form.exists_root_not_root` shows that both matter.

For rational numbers the answer is the root that the format asks for: the positive root, the real
root under the real format, the principal root otherwise, and none exactly where the format is real
and the root is not.
-/

namespace Resolvent

variable {K : Type*} [Field K]

/-! ### Radicals that are roots -/

/-- The value of a radical is a root of the value of its radicand. -/
def Valuation.TakesRadicals (v : Valuation K) : Prop :=
  ∀ (f : Form) {n : Nat}, 2 ≤ n → v (.radical f n) ^ n = f.value v

theorem Valuation.takesRadicals_principal (x : Nat → ℂ) (functions : Builtin → List ℂ → ℂ) :
    (principal x functions).TakesRadicals := by
  intro f n hn
  change Atom.principal x functions (.radical f n) ^ n = _
  rw [Atom.principal_radical]
  exact Complex.cpow_nat_inv_pow _ (by omega)

/-- The circle number and Euler's number have their values, and roots are the positive ones. -/
structure Valuation.IsPositive (v : Valuation ℂ) : Prop where
  pi : v .pi = (Real.pi : ℂ)
  e : v .e = (Real.exp 1 : ℂ)
  root : ∀ (q : Rat) (n : Nat), 0 < q → v (.root q n) = (((q : ℝ) ^ (n : ℝ)⁻¹ : ℝ) : ℂ)

theorem Valuation.isPositive_principal (x : Nat → ℂ) (functions : Builtin → List ℂ → ℂ) :
    (principal x functions).IsPositive := by
  refine ⟨?_, ?_, fun q n _ => ?_⟩ <;> change Atom.principal x functions _ = _ <;>
    rw [Atom.principal]

section Choice

variable (v : Atom → K) (root : Form → Nat → K → K)

mutual

/-- The value of an atom for a choice of roots of the values of radicands. -/
noncomputable def Atom.withRadicals : Atom → K
  | .radical ⟨terms⟩ n => root ⟨terms⟩ n (Form.withRadicalsTerms terms)
  | a => v a

/-- The value of a product for a choice of roots. -/
noncomputable def Monomial.withRadicalsFactors : List (Atom × Int) → K
  | [] => 1
  | (a, k) :: factors => Atom.withRadicals a ^ k * Monomial.withRadicalsFactors factors

/-- The value of a sum of terms for a choice of roots. -/
noncomputable def Form.withRadicalsTerms : List (Monomial × Rat) → K
  | [] => 0
  | (⟨factors⟩, q) :: terms =>
    q * Monomial.withRadicalsFactors factors + Form.withRadicalsTerms terms

end

theorem Monomial.withRadicalsFactors_eq (factors : List (Atom × Int)) :
    withRadicalsFactors v root factors = factorsValue (Atom.withRadicals v root) factors := by
  induction factors with
  | nil => rw [withRadicalsFactors, factorsValue_nil]
  | cons y factors ih => rw [withRadicalsFactors, ih, factorsValue_cons]

theorem Form.withRadicalsTerms_eq (terms : List (Monomial × Rat)) :
    withRadicalsTerms v root terms = termsValue (Atom.withRadicals v root) terms := by
  induction terms with
  | nil => rw [withRadicalsTerms, termsValue_nil]
  | cons t terms ih =>
    obtain ⟨⟨factors⟩, q⟩ := t
    rw [withRadicalsTerms, ih, Monomial.withRadicalsFactors_eq, termsValue_cons, Monomial.value]

theorem Atom.withRadicals_radical (f : Form) (n : Nat) :
    Atom.withRadicals v root (.radical f n) = root f n (f.value (Atom.withRadicals v root)) := by
  obtain ⟨terms⟩ := f
  rw [Atom.withRadicals, Form.withRadicalsTerms_eq, Form.value]

end Choice

/-- The valuation with other roots for the values of radicals. -/
noncomputable def Valuation.withRadicals (v : Valuation K) (root : Form → Nat → K → K) :
    Valuation K where
  toFun := Atom.withRadicals v root
  imaginaryUnit_sq := by simpa [Atom.withRadicals] using v.imaginaryUnit_sq
  root_pow := by
    intro q n hq hn
    simpa [Atom.withRadicals] using v.root_pow hq hn
  root_mul := by
    intro q r n hq hr hn
    simpa [Atom.withRadicals] using v.root_mul hq hr hn
  root_of_pow := by
    intro q n hq hn
    simpa [Atom.withRadicals] using v.root_of_pow hq hn

theorem Valuation.takesRadicals_withRadicals (v : Valuation K) {root : Form → Nat → K → K}
    (h : ∀ f n z, 2 ≤ n → root f n z ^ n = z) : (v.withRadicals root).TakesRadicals := by
  intro f n hn
  change Atom.withRadicals v root (.radical f n) ^ n = _
  rw [Atom.withRadicals_radical, h _ _ _ hn]
  rfl

theorem Valuation.IsPositive.withRadicals {v : Valuation ℂ} (h : v.IsPositive)
    (root : Form → Nat → ℂ → ℂ) : (v.withRadicals root).IsPositive := by
  refine ⟨?_, ?_, fun q n hq => ?_⟩ <;> change Atom.withRadicals v root _ = _
  · simpa [Atom.withRadicals] using h.pi
  · simpa [Atom.withRadicals] using h.e
  · simpa [Atom.withRadicals] using h.root q n hq

namespace Form

variable {v : Valuation K} {p : Preferences} {f r : Form} {q : Rat} {n : Nat}

section Lawful

variable (hv : v.TakesRadicals)

include hv

/-- A radical of a form whose value is not zero is lawful. -/
theorem lawful_radical (hn : 2 ≤ n) (hf : f.value v ≠ 0) : v.Lawful (.radical f n) := by
  have hpow := hv f hn
  refine ⟨hn, fun hzero => hf ?_, hpow⟩
  rw [← hpow, hzero, zero_pow (by omega)]

theorem lawful_radical_ofRat [CharZero K] (hn : 2 ≤ n) (hq : q ≠ 0) :
    v.Lawful (.radical (ofRat q) n) := by
  refine lawful_radical hv hn ?_
  rw [value_ofRat]
  exact_mod_cast hq

theorem admitsPositiveRoot_of_pos [CharZero K] (hn : 2 ≤ n) (hq : 0 < q) :
    v.AdmitsPositiveRoot q n := fun _ => lawful_radical_ofRat hv hn hq.ne'

theorem admitsRationalRoot_of_ne_zero [CharZero K] (format : ComplexFormat) (hn : 2 ≤ n)
    (hq : q ≠ 0) : v.AdmitsRationalRoot format q n := by
  unfold Valuation.AdmitsRationalRoot
  split
  · exact admitsPositiveRoot_of_pos hv hn (pos_magnitude hq)
  · exact lawful_radical_ofRat hv hn hq

end Lawful

/-! ### Monomials of roots -/

theorem reduced_radical (f : Form) (hn : 2 ≤ n) : Monomial.Reduced ⟨[(.radical f n, 1)]⟩ :=
  Monomial.reduced_singleton ⟨one_pos, by omega⟩ (rfl : Width.isInt32 1 = true)

theorem reducedIn_radical {S : Atom → Prop} (hn : 2 ≤ n) (h : S (.radical f n)) :
    (radical f n).MonomialsIn (Monomial.ReducedIn S) := by
  rw [radical_eq hn]
  intro t ht
  rw [List.mem_singleton.1 ht]
  exact Monomial.reducedIn_singleton h (reduced_radical f hn)

theorem reducedIn_imaginaryUnit :
    imaginaryUnit.MonomialsIn (Monomial.ReducedIn (· = .imaginaryUnit)) := by
  rw [imaginaryUnit_eq]
  intro t ht
  rw [List.mem_singleton.1 ht]
  exact Monomial.reducedIn_singleton rfl
    (Monomial.reduced_singleton rfl (rfl : Width.isInt32 1 = true))

/-- A root or a radical with the index. -/
def IsRootOf (n : Nat) : Atom → Prop
  | .root _ m | .radical _ m => m = n
  | _ => False

/-- The monomials of positive roots are reduced. -/
theorem reducedIn_positiveRoot (q : Rat) (hn : 2 ≤ n) :
    (positiveRoot q n).MonomialsIn (Monomial.ReducedIn (IsRootOf n)) := by
  unfold positiveRoot
  split
  · dsimp only
    split
    · exact monomialsIn_ofRat (Monomial.reducedIn_one _) _
    · next hone =>
      have hagain := PerfectPower.extractWith_extractWith PerfectPower.estimate
        (q * Rat.pow q.den n) n
      have hreduced := Monomial.reduced_singleton (a := .root _ n) rfl ⟨hone, hagain, hn⟩
      rw [ofFactors_of_reduced hreduced]
      exact monomialsIn_ofTerm
        ⟨hreduced, fun x hx => by rw [List.mem_singleton.1 hx]; exact rfl⟩ _
  · exact reducedIn_radical hn rfl

theorem apart_imaginaryUnit (n : Nat) : Atom.Apart (IsRootOf n) (· = .imaginaryUnit) := by
  refine ⟨?_, fun _ _ _ _ => nofun⟩
  rintro _ h rfl
  exact h

/-- The monomials of the cube root of minus one are reduced. -/
theorem reducedIn_sixthTurn :
    sixthTurn.MonomialsIn (Monomial.ReducedIn fun a => IsRootOf 2 a ∨ a = .imaginaryUnit) :=
  ((monomialsIn_ofRat (Monomial.reducedIn_one _) 1).add
    (monomialsIn_mul_of_reducedIn (apart_imaginaryUnit 2) (reducedIn_positiveRoot 3 le_rfl)
      reducedIn_imaginaryUnit)).scale _

theorem apart_sixthTurn :
    Atom.Apart (IsRootOf 3) fun a => IsRootOf 2 a ∨ a = .imaginaryUnit := by
  refine ⟨?_, ?_⟩
  · rintro a h (h' | rfl)
    · cases a with
      | root q m | radical f m =>
        have h : m = 3 := h
        have h' : m = 2 := h'
        omega
      | _ => exact h
    · exact h
  · rintro q r m h (h' | h')
    · have h : m = 3 := h
      have h' : m = 2 := h'
      omega
    · cases h'

/-- The imaginary unit, a root or a radical. -/
def IsRootOrUnit : Atom → Prop
  | .imaginaryUnit | .root _ _ | .radical _ _ => True
  | _ => False

theorem IsRootOf.isRootOrUnit {a : Atom} (h : IsRootOf n a) : IsRootOrUnit a := by
  cases a with
  | root _ _ | radical _ _ => trivial
  | _ => exact h.elim

/-- The monomials of the root of a rational number are reduced. -/
theorem reducedIn_rationalRoot {format : ComplexFormat} (hn : 2 ≤ n)
    (h : rationalRoot format q n = .ok r) :
    r.MonomialsIn (Monomial.ReducedIn IsRootOrUnit) := by
  have hpositive := reducedIn_positiveRoot (Rational.magnitude q) hn
  have hwiden : ∀ m : Monomial, m.ReducedIn (IsRootOf n) → m.ReducedIn IsRootOrUnit :=
    fun m hm => hm.imp fun _ => IsRootOf.isRootOrUnit
  rw [rationalRoot] at h
  split at h
  · cases h
    exact fun t ht => hwiden _ (hpositive t ht)
  · split at h
    · split at h
      · cases h
        exact (MonomialsIn.neg fun t ht => hwiden _ (hpositive t ht))
      · cases h
    · split at h
      · cases h
        intro t ht
        refine (monomialsIn_mul_of_reducedIn (apart_imaginaryUnit n) hpositive
          reducedIn_imaginaryUnit t ht).imp fun a ha => ?_
        rcases ha with ha | rfl
        · exact ha.isRootOrUnit
        · trivial
      · split at h
        · next hthree =>
          subst hthree
          cases h
          intro t ht
          refine (monomialsIn_mul_of_reducedIn apart_sixthTurn hpositive
            reducedIn_sixthTurn t ht).imp fun a ha => ?_
          rcases ha with ha | ha | rfl
          · exact ha.isRootOrUnit
          · exact ha.isRootOrUnit
          · trivial
        · cases h
          exact reducedIn_radical hn trivial

/-! ### Powers of constants -/

theorem isInt32_ediv {k m : Int} (hk : Width.isInt32 k = true) (hm : 0 < m) :
    Width.isInt32 (k / m) = true := by
  simp only [Width.isInt32, decide_eq_true_eq] at hk ⊢
  have hlow : (-2147483648) / m ≤ k / m := Int.ediv_le_ediv hm hk.1
  have hhigh : k / m ≤ 2147483647 / m := Int.ediv_le_ediv hm hk.2
  have hlow' : -2147483648 ≤ (-2147483648) / m := by
    refine (Int.le_ediv_iff_mul_le hm).2 ?_
    nlinarith
  have hhigh' : 2147483647 / m ≤ 2147483647 := Int.ediv_le_self _ (by decide)
  omega

/-- The factors of the root of a power of constants make a reduced monomial. -/
theorem exists_reducedIn_constantPower? (hf : f.Stored) (hn : 2 ≤ n) {factors : List (Atom × Int)}
    (h : f.constantPower? n = some (q, factors)) :
    ∃ m : Monomial, m.ReducedIn Atom.IsRealConstant ∧ factors.Perm m.factors := by
  obtain ⟨l, hsingle, rfl, hconstants⟩ := constantPower?_eq_some h
  have hl := stored_iff.1 hf (l, q) (by
    rw [terms_of_singleTerm? hsingle]
    exact List.mem_singleton_self _)
  have hpos : 0 < Width.clamp32 n := clamp32_pos (by omega)
  have hne : (l.factors.map fun x => (x.1, x.2 / Width.clamp32 n)).Pairwise
      fun x y => x.1 ≠ y.1 := List.pairwise_map.2 hl.distinct
  have hmem : ∀ {x : Atom × Int}, x ∈ l.factors.map (fun x => (x.1, x.2 / Width.clamp32 n)) →
      x.1.IsRealConstant ∧ x.2 ≠ 0 ∧ Width.isInt32 x.2 = true := by
    intro x hx
    obtain ⟨y, hy, rfl⟩ := List.mem_map.1 hx
    obtain ⟨hconstant, hdvd⟩ := hconstants y hy
    obtain ⟨hne, hword⟩ := hl.exponent y hy
    exact ⟨hconstant, fun hzero => hne (Int.eq_zero_of_ediv_eq_zero hdvd hzero),
      isInt32_ediv hword hpos⟩
  obtain ⟨m, hm, hperm⟩ := Monomial.exists_reduced hne
    (fun x hx => by
      obtain ⟨a, k⟩ := x
      obtain ⟨rfl | rfl, hne, -⟩ := hmem hx <;> exact hne)
    (fun hq _ => by
      obtain ⟨h | h, -⟩ := hmem hq <;> cases h)
    (fun x hx => by
      obtain ⟨a, k⟩ := x
      obtain ⟨rfl | rfl, -, hword⟩ := hmem hx <;> exact hword)
  exact ⟨m, ⟨hm, fun x hx => (hmem (hperm.mem_iff.2 hx)).1⟩, hperm⟩

theorem apart_isRealConstant : Atom.Apart IsRootOrUnit Atom.IsRealConstant := by
  refine ⟨?_, fun _ _ _ _ h => by rcases h with h | h <;> cases h⟩
  rintro _ h (rfl | rfl) <;> exact h

variable [CharZero K]

/-- The multiple of a power of constants by a root of a rational number is their product. -/
theorem value_mul_constants (v : Atom → K) (hf : f.Stored) (hn : 2 ≤ n) {format : ComplexFormat}
    {factors : List (Atom × Int)} (h : f.constantPower? n = some (q, factors))
    (hr : rationalRoot format q n = .ok r) :
    (mul r (ofFactors 1 factors)).value v = r.value v * Monomial.factorsValue v factors := by
  obtain ⟨m, hm, hperm⟩ := exists_reducedIn_constantPower? hf hn h
  rw [ofFactors, normalize_of_perm hm.reduced hperm, value_mul_of_reducedIn v apart_isRealConstant
    (reducedIn_rationalRoot hn hr) (monomialsIn_ofTerm hm 1), value_ofTerm, Monomial.value,
    Rat.cast_one, one_mul]
  exact congrArg _ ((hperm.map _).prod_eq).symm

/-! ### Roots of all forms -/

section Powers

variable (hv : v.TakesRadicals)

include hv

theorem value_generalRoot_pow (hn : 2 ≤ n) (hr : generalRoot p f n = .ok r) :
    r.value v ^ n = f.value v := by
  rcases generalRoot_cases hr with rfl | ⟨rfl, rfl, -⟩
  · rw [value_radical hn, hv f hn]
  · rw [value_mul_of_reducedIn v (apart_imaginaryUnit 2) (reducedIn_radical le_rfl rfl)
      reducedIn_imaginaryUnit, value_imaginaryUnit, mul_pow, v.imaginaryUnit_sq,
      value_radical le_rfl, hv _ le_rfl, value_neg]
    ring

theorem value_otherRoot_pow (hf : f.Constructible) (hn : 2 ≤ n)
    (hword : n ≤ 2147483647 ∨ f.constantPower? n = none) (hr : otherRoot p f n = .ok r) :
    r.value v ^ n = f.value v := by
  rw [otherRoot] at hr
  split at hr
  · next q factors hpower =>
    obtain ⟨s, hs, rfl⟩ := Except.map_eq_ok_iff.1 hr
    have hword : n ≤ 2147483647 := hword.resolve_right fun h => by cases hpower.symm.trans h
    obtain ⟨hvalue, m, hsingle⟩ := value_constantPower? (v := v) hword hpower
    have hq : q ≠ 0 := (hf.noZeros (m, q) (by simp [terms_of_singleTerm? hsingle])).1
    rw [value_mul_constants v hf.stored hn hpower hs, mul_pow, hvalue,
      value_rationalRoot hq hn (admitsRationalRoot_of_ne_zero hv _ hn hq) hs]
  · exact value_generalRoot_pow hv hn hr

theorem value_irrationalRoot_pow (hf : f.Constructible) (hn : 2 ≤ n)
    (hword : n ≤ 2147483647 ∨ f.constantPower? n = none)
    (hpairs : ∀ a b, n = 2 → f.gaussianParts? = some (a, b) → v.PairsRoots a b)
    (hr : irrationalRoot p f n = .ok r) : r.value v ^ n = f.value v := by
  rw [irrationalRoot] at hr
  split at hr
  · exact value_otherRoot_pow hv hf hn hword hr
  · next a b hparts =>
    obtain ⟨rfl, hparts⟩ : n = 2 ∧ f.gaussianParts? = some (a, b) := by
      split at hparts
      · next htwo => exact ⟨htwo, hparts⟩
      · cases hparts
    split at hr
    · cases hr
    · split at hr
      · next s hs =>
        cases hr
        obtain ⟨hb, hvalue⟩ := value_of_gaussianParts? (v := v) hf.stored.unitReduced hparts
        rw [hvalue, value_squareRootOfSum?_iff hb (fun modulus hmodulus => ?_) hs]
        · exact hpairs a b rfl hparts
        · obtain ⟨hx, hy⟩ := pos_parts_of_toRat?_positiveRoot hb hmodulus
          exact ⟨admitsPositiveRoot_of_pos hv le_rfl hx, admitsPositiveRoot_of_pos hv le_rfl hy⟩
      · exact value_otherRoot_pow hv hf hn hword hr

/-- The power of the root of a form has the value of the form. -/
theorem value_root_pow (hf : f.Constructible) (hn : 1 ≤ n)
    (hword : n ≤ 2147483647 ∨ f.constantPower? n = none)
    (hpairs : ∀ a b, n = 2 → f.gaussianParts? = some (a, b) → v.PairsRoots a b)
    (hr : root p f n = .ok r) : r.value v ^ n = f.value v := by
  rw [root] at hr
  split at hr
  · next hplain =>
    cases hr
    rcases Bool.or_eq_true_iff.1 hplain with hone | hzero
    · obtain rfl : n = 1 := le_antisymm (of_decide_eq_true hone) hn
      exact pow_one _
    · rw [isZero_iff.1 hzero, value_zero, zero_pow (by omega)]
  · next hplain =>
    simp only [Bool.or_eq_true, decide_eq_true_eq, not_or] at hplain
    have hn : 2 ≤ n := by omega
    split at hr
    · next q hq =>
      have hne : f ≠ zero := fun h => hplain.2 (isZero_iff.2 h)
      have hq0 := ne_zero_of_toRat? hf.noZeros hne hq
      rw [toRat?_eq_some v hq]
      exact value_rationalRoot hq0 hn (admitsRationalRoot_of_ne_zero hv _ hn hq0) hr
    · exact value_irrationalRoot_pow hv hf hn hword hpairs hr

end Powers

section Rational

variable (x : Nat → ℂ) (functions : Builtin → List ℂ → ℂ)

/-- Only even roots of negative numbers have no value, and only under the real format. -/
theorem root_ofRat_eq_error_iff {e : NonReal} (hn : 1 ≤ n) :
    root p (ofRat q) n = .error e ↔ p.complexFormat = .real ∧ q < 0 ∧ n % 2 = 0 := by
  by_cases hplain : n ≤ 1 ∨ q = 0
  · have hok : root p (ofRat q) n = .ok (ofRat q) := by
      rw [root, if_pos (by simpa [isZero_ofRat] using hplain)]
    rw [hok]
    refine ⟨fun h => (by cases h), fun h => ?_⟩
    obtain ⟨-, hq, heven⟩ := h
    rcases hplain with hone | rfl
    · omega
    · exact absurd hq (lt_irrefl _)
  · have hplain := not_or.1 hplain
    rw [root_ofRat hplain.2 (by omega), rationalRoot]
    by_cases hq : 0 ≤ q
    · rw [if_pos hq]
      exact ⟨fun h => (by cases h), fun h => absurd h.2.1 (not_lt.2 hq)⟩
    · rw [if_neg hq]
      split
      · next hreal =>
        split
        · next hodd => exact ⟨fun h => (by cases h), fun h => by omega⟩
        · next heven => exact ⟨fun _ => ⟨hreal, not_le.1 hq, by omega⟩, fun _ => rfl⟩
      · next hreal =>
        refine ⟨fun h => ?_, fun h => absurd h.1 hreal⟩
        split at h
        · cases h
        · split at h <;> cases h

/-- The root of a rational number is the positive one, the real one under the real format, and the
principal one otherwise. -/
theorem value_root_ofRat (hn : 1 ≤ n) (h : root p (ofRat q) n = .ok r) :
    (0 ≤ q → r.value (Valuation.principal x functions) = (((q : ℝ) ^ (n : ℝ)⁻¹ : ℝ) : ℂ)) ∧
      (q < 0 → p.complexFormat = .real → n % 2 = 1 ∧
        r.value (Valuation.principal x functions) = ((-(-q : ℝ) ^ (n : ℝ)⁻¹ : ℝ) : ℂ)) ∧
      (q < 0 → p.complexFormat ≠ .real →
        r.value (Valuation.principal x functions) = (q : ℂ) ^ (n : ℂ)⁻¹) := by
  have hroot := exactRoot_eq_of_root x functions hn h
  refine ⟨fun hq => ?_, fun hq hreal => ?_, fun hq hreal => ?_⟩
  · have hq : (0 : ℝ) ≤ q := Rat.cast_nonneg.2 hq
    rw [exactRoot, if_neg fun h => not_lt.2 hq h.1] at hroot
    rw [← Option.some.inj hroot, Complex.ofReal_cpow hq]
    push_cast
    rfl
  · rw [exactRoot, if_pos ⟨Rat.cast_lt_zero.2 hq, hreal⟩] at hroot
    split at hroot
    · next hodd => exact ⟨hodd, (Option.some.inj hroot).symm⟩
    · cases hroot
  · rw [exactRoot, if_neg fun h => hreal h.2] at hroot
    rw [← Option.some.inj hroot, Complex.ofReal_ratCast]

end Rational

/-- The principal values belong together. -/
theorem pairsRoots_principal (x : Nat → ℂ) (functions : Builtin → List ℂ → ℂ) {a b : Rat}
    (h : f.gaussianParts? = some (a, b)) : (Valuation.principal x functions).PairsRoots a b := by
  have hb := gaussianParts?_ne_zero h
  refine pairsRoots_of_admits hb fun modulus hmodulus => ?_
  obtain ⟨hx, hy⟩ := pos_parts_of_toRat?_positiveRoot hb hmodulus
  exact ⟨agreesAt_principal x functions hx 2, agreesAt_principal x functions hy 2⟩

/-- The square root of a number that is not real, outside the real format. -/
theorem root_two_of_gaussianParts? {a b : Rat} (h : f.gaussianParts? = some (a, b))
    (hf : f.toRat? = none) (hp : p.complexFormat ≠ .real) (hr : squareRootOfSum? a b = some r) :
    root p f 2 = .ok r := by
  have hzero : f.isZero = false := by
    obtain ⟨terms⟩ := f
    cases terms with
    | nil => cases hf
    | cons t terms => rfl
  rw [root, hzero, if_neg (by decide), hf]
  dsimp only
  rw [irrationalRoot, if_pos rfl, h]
  dsimp only
  rw [if_neg hp, hr]

/-- **Roots are roots.**  Under any valuation that gives radicals the values of roots, the power of
the answer has the value of the form, as long as the index is a word of 32 bits or no constants are
taken out of the root, and the parts of the square root of `a + bi` belong together.  The answer for a
rational number is the root that the format asks for, or none exactly if the format is real and the
root is not. -/
theorem root_spec (hf : f.Constructible) (hn : 1 ≤ n) (p : Preferences) :
    (∀ r, root p f n = .ok r → (n ≤ 2147483647 ∨ f.constantPower? n = none) →
      ∀ v : Valuation K, v.TakesRadicals →
        (∀ a b, n = 2 → f.gaussianParts? = some (a, b) → v.PairsRoots a b) →
        r.value v ^ n = f.value v) ∧
      ∀ q, f = ofRat q →
        (∀ e, root p f n = .error e ↔ p.complexFormat = .real ∧ q < 0 ∧ n % 2 = 0) ∧
        ∀ r, root p f n = .ok r → ∀ (x : Nat → ℂ) (functions : Builtin → List ℂ → ℂ),
          (0 ≤ q → r.value (Valuation.principal x functions) =
            (((q : ℝ) ^ (n : ℝ)⁻¹ : ℝ) : ℂ)) ∧
          (q < 0 → p.complexFormat = .real → n % 2 = 1 ∧
            r.value (Valuation.principal x functions) = ((-(-q : ℝ) ^ (n : ℝ)⁻¹ : ℝ) : ℂ)) ∧
          (q < 0 → p.complexFormat ≠ .real →
            r.value (Valuation.principal x functions) = (q : ℂ) ^ (n : ℂ)⁻¹) := by
  refine ⟨fun r hr hword v hv hpairs => value_root_pow hv hf hn hword hpairs hr, ?_⟩
  rintro q rfl
  exact ⟨fun e => root_ofRat_eq_error_iff hn, fun r hr x functions =>
    value_root_ofRat x functions hn hr⟩

/-- The root of `3 + 4i` is `2 + i`, and that of `-8` is `-2` under the real format. -/
theorem value_root_three_add_four_unit :
    (add (ofRat 2) imaginaryUnit).value unitValuation ^ 2 =
        (add (ofRat 3) (imaginaryUnit.scale 4)).value unitValuation ∧
      (ofRat (-2)).value unitValuation = ((-(-(-8 : Rat) : ℝ) ^ ((3 : ℕ) : ℝ)⁻¹ : ℝ) : ℂ) := by
  have hsum : (add (ofRat 3) (imaginaryUnit.scale 4)).Constructible :=
    .add (.ofRat 3) (.scale .imaginaryUnit 4)
  have hparts : (add (ofRat 3) (imaginaryUnit.scale 4)).gaussianParts? = some (3, 4) := by
    with_unfolding_all rfl
  have hsquare : root { complexFormat := .cartesian } (add (ofRat 3) (imaginaryUnit.scale 4)) 2 =
      .ok (add (ofRat 2) imaginaryUnit) :=
    root_two_of_gaussianParts? hparts (by decide +kernel) (by decide) (by decide +kernel)
  have hcube : root {} (ofRat (-8)) 3 = .ok (ofRat (-2)) := by
    rw [root_ofRat (by decide) (by decide)]
    with_unfolding_all rfl
  constructor
  · refine (root_spec hsum (by decide) _).1 _ hsquare (.inl (by decide)) unitValuation
      (Valuation.takesRadicals_principal _ _) fun a b _ h => pairsRoots_principal _ _ h
  · exact ((((root_spec (K := ℂ) (.ofRat (-8)) (by decide) {}).2 (-8) rfl).2 _ hcube _ _).2.1
      (by norm_num) rfl).2

/-! ### Where roots are none -/

/-- The power of the circle number with the largest exponent. -/
def largestPower : Form := ofFactors 1 [(.pi, 2147483647)]

theorem largestPower_eq : largestPower = ⟨[(⟨[(.pi, 2147483647)]⟩, 1)]⟩ := by with_unfolding_all rfl

theorem constructible_largestPower : largestPower.Constructible :=
  .product 1 fun x hx => by
    rw [List.mem_singleton.1 hx]
    exact .pi

theorem constantPower?_largestPower (hn : 2147483647 < n) :
    largestPower.constantPower? n = some (1, [(.pi, 1)]) := by
  have hclamp : Width.clamp32 n = 2147483647 := by
    unfold Width.clamp32
    rw [if_neg (by omega), if_pos (by omega)]
  rw [constantPower?, hclamp, largestPower_eq]
  rfl

theorem rationalRoot_one (format : ComplexFormat) (hn : 2147483647 < n) :
    rationalRoot format 1 n = .ok (radical (ofRat 1) n) := by
  have hword : Width.isInt32 n = false := by
    simp only [Width.isInt32, decide_eq_false_iff_not]
    omega
  rw [rationalRoot, if_pos (by decide), positiveRoot, hword, Bool.and_false]
  rfl

/-- The root of the largest power with an index beyond a word is a multiple of the circle number. -/
theorem root_largestPower (hn : 2147483647 < n) :
    root p largestPower n = .ok (mul (radical (ofRat 1) n) (ofFactors 1 [(.pi, 1)])) := by
  have hzero : largestPower.isZero = false := by rw [largestPower_eq]; rfl
  rw [root, hzero, if_neg (by simp; omega), show largestPower.toRat? = none by
    rw [largestPower_eq]; rfl]
  dsimp only
  rw [irrationalRoot, if_neg (by omega)]
  dsimp only
  rw [otherRoot, constantPower?_largestPower hn]
  dsimp only
  rw [rationalRoot_one _ hn]
  rfl

/-- The power of this root has an exponent that is too large. -/
theorem value_root_largestPower_ne {v : Valuation ℂ} (hv : v.TakesRadicals)
    (hpi : v .pi = (Real.pi : ℂ)) (hn : 2147483647 < n) :
    (mul (radical (ofRat 1) n) (ofFactors 1 [(.pi, 1)])).value v ^ n ≠ largestPower.value v := by
  have hvalue : (mul (radical (ofRat 1) n) (ofFactors 1 [(.pi, 1)])).value v ^ n =
      ((Real.pi ^ n : ℝ) : ℂ) := by
    rw [value_mul_constants v constructible_largestPower.stored (by omega)
      (constantPower?_largestPower hn) (rationalRoot_one .real hn), mul_pow,
      value_radical (by omega), hv _ (by omega), value_ofRat, Monomial.factorsValue_cons,
      Monomial.factorsValue_nil, hpi, zpow_one, mul_one, Rat.cast_one, one_mul, Complex.ofReal_pow]
  have hpower : largestPower.value v = ((Real.pi ^ 2147483647 : ℝ) : ℂ) := by
    rw [largestPower_eq, value, termsValue_cons, termsValue_nil, Monomial.value,
      Monomial.factorsValue_cons, Monomial.factorsValue_nil, hpi, Complex.ofReal_pow,
      ← zpow_natCast, Nat.cast_ofNat]
    simp only [Rat.cast_one, one_mul, mul_one, AddZeroClass.add_zero]
  rw [hvalue, hpower]
  have hlarge : (1 : ℝ) < Real.pi := by linarith [Real.pi_gt_three]
  intro h
  have hindex : n = 2147483647 := pow_right_injective₀ (by linarith) hlarge.ne'
    (Complex.ofReal_injective h)
  omega

/-- The real part of a number of modulus one. -/
def tiltedReal : Rat := (2 ^ 128 - 1) / (2 ^ 128 + 1)

/-- The imaginary part of the number. -/
def tiltedImaginary : Rat := 2 ^ 65 / (2 ^ 128 + 1)

/-- A number of modulus one such that the denominators of the squares of the parts of its root do
not fit 128 bits. -/
def tilted : Form := add (ofRat tiltedReal) (imaginaryUnit.scale tiltedImaginary)

theorem constructible_tilted : tilted.Constructible :=
  .add (.ofRat _) (.scale .imaginaryUnit _)

theorem gaussianParts?_tilted : tilted.gaussianParts? = some (tiltedReal, tiltedImaginary) := by
  with_unfolding_all rfl

theorem toRat?_modulus_tilted :
    (positiveRoot (tiltedReal * tiltedReal + tiltedImaginary * tiltedImaginary) 2).toRat? =
      some 1 := by
  with_unfolding_all rfl

/-- A valuation that gives one radical in the root the opposite of its principal value. -/
noncomputable def oppositeRadical : Valuation ℂ :=
  unitValuation.withRadicals fun f n z =>
    if f = ofRat ((1 - tiltedReal) * (1 / 2)) ∧ n = 2 then -z ^ (n : ℂ)⁻¹ else z ^ (n : ℂ)⁻¹

theorem takesRadicals_oppositeRadical : oppositeRadical.TakesRadicals := by
  refine Valuation.takesRadicals_withRadicals _ fun f n z hn => ?_
  have hroot : (z ^ (n : ℂ)⁻¹) ^ n = z := Complex.cpow_nat_inv_pow z (by omega)
  split
  · next h =>
    rw [h.2] at hroot ⊢
    rw [neg_sq, hroot]
  · exact hroot

/-- A root that stays a radical has the value of the root, up to the sign. -/
theorem value_positiveRoot_oppositeRadical (hq : 0 < q) (h : IsOversized q 2) :
    (positiveRoot q 2).value oppositeRadical =
      if q = (1 - tiltedReal) * (1 / 2) then -oppositeRadical (.root q 2)
      else oppositeRadical (.root q 2) := by
  have hradical : positiveRoot q 2 = radical (ofRat q) 2 := by
    rw [positiveRoot, if_neg (by rw [show _ = false from h]; exact Bool.false_ne_true)]
  have hroot : oppositeRadical (.root q 2) = unitValuation (.root q 2) := by
    change Atom.withRadicals _ _ _ = _
    rw [Atom.withRadicals]
    intro f n h
    cases h
  have hprincipal : (q : ℂ) ^ ((2 : ℕ) : ℂ)⁻¹ = unitValuation (.root q 2) := by
    refine Eq.trans ?_ (agreesAt_principal _ _ hq 2 h)
    change _ = Atom.principal _ _ _
    rw [Atom.principal_radical, value_ofRat]
  rw [hradical, value_radical le_rfl, hroot, ← hprincipal]
  change Atom.withRadicals _ _ _ = _
  rw [Atom.withRadicals_radical, value_ofRat]
  by_cases heq : q = (1 - tiltedReal) * (1 / 2)
  · rw [if_pos heq, if_pos ⟨congrArg ofRat heq, rfl⟩]
  · rw [if_neg heq, if_neg fun h => heq (ofRat_injective h.1)]

/-- The parts of the root do not belong together under this valuation. -/
theorem not_pairsRoots_oppositeRadical :
    ¬ oppositeRadical.PairsRoots tiltedReal tiltedImaginary := by
  have hre : (0 : Rat) < (1 + tiltedReal) * (1 / 2) := by norm_num [tiltedReal]
  have him : (0 : Rat) < (1 - tiltedReal) * (1 / 2) := by norm_num [tiltedReal]
  intro h
  have h := h 1 toRat?_modulus_tilted
  rw [value_positiveRoot_oppositeRadical hre (by unfold IsOversized; with_unfolding_all rfl),
    value_positiveRoot_oppositeRadical him (by unfold IsOversized; with_unfolding_all rfl),
    if_pos rfl, if_neg (by norm_num [tiltedReal]), mul_neg, neg_eq_self] at h
  exact mul_ne_zero (oppositeRadical.root_ne_zero hre le_rfl)
    (oppositeRadical.root_ne_zero him le_rfl) h

/-- Roots need not be roots: where the index is no word of 32 bits the root of a power of the circle
number is taken with a smaller one, and where the denominators in the root of `a + bi` are too large
radicals may have values that do not belong together.  In both cases radicals have the values of
roots, the circle number and Euler's number are positive, and so are roots of positive numbers. -/
theorem exists_root_not_root :
    (∃ f r : Form, ∃ v : Valuation ℂ, f.Constructible ∧ root {} f 2147483648 = .ok r ∧
      v.TakesRadicals ∧ v.IsPositive ∧ r.value v ^ 2147483648 ≠ f.value v) ∧
    ∃ f r : Form, ∃ v : Valuation ℂ, f.Constructible ∧
      root { complexFormat := .cartesian } f 2 = .ok r ∧
      v.TakesRadicals ∧ v.IsPositive ∧ r.value v ^ 2 ≠ f.value v := by
  constructor
  · exact ⟨largestPower, _, unitValuation, constructible_largestPower,
      root_largestPower (by decide), Valuation.takesRadicals_principal _ _,
      Valuation.isPositive_principal _ _, value_root_largestPower_ne
        (Valuation.takesRadicals_principal _ _) (Valuation.isPositive_principal _ _).pi (by decide)⟩
  · obtain ⟨r, hr⟩ : ∃ r, squareRootOfSum? tiltedReal tiltedImaginary = some r := by
      rw [squareRootOfSum?, toRat?_modulus_tilted]
      exact ⟨_, rfl⟩
    have hb : tiltedImaginary ≠ 0 := by norm_num [tiltedImaginary]
    refine ⟨tilted, r, oppositeRadical, constructible_tilted,
      root_two_of_gaussianParts? gaussianParts?_tilted (by with_unfolding_all rfl) (by decide) hr,
      takesRadicals_oppositeRadical, (Valuation.isPositive_principal _ _).withRadicals _,
      fun hpow => ?_⟩
    rw [(value_of_gaussianParts? constructible_tilted.stored.unitReduced
      gaussianParts?_tilted).2] at hpow
    refine not_pairsRoots_oppositeRadical
      ((value_squareRootOfSum?_iff hb (fun modulus hmodulus => ?_) hr).1 hpow)
    obtain ⟨hx, hy⟩ := pos_parts_of_toRat?_positiveRoot hb hmodulus
    exact ⟨admitsPositiveRoot_of_pos takesRadicals_oppositeRadical le_rfl hx,
      admitsPositiveRoot_of_pos takesRadicals_oppositeRadical le_rfl hy⟩

end Form

end Resolvent

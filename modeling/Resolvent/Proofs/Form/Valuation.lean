import Resolvent.Proofs.Form.PerfectPower
import Resolvent.Proofs.Form.Value
import Mathlib.Algebra.Order.Field.Power
import Mathlib.Analysis.SpecialFunctions.Pow.Complex
import Mathlib.Analysis.SpecialFunctions.Pow.Real
import Mathlib.Tactic.NormNum

/-!
# Valuations

A valuation gives the atoms values in a field such that the imaginary unit is one and roots are a
multiplicative choice of roots of the positive rational numbers.  `Valuation.Lawful` says of one
atom that it has a value other than zero and satisfies its defining equation: a power of a radical
is its radicand, a reciprocal times the sum in it is one.  No valuation is lawful at every atom, as
there are radicals and reciprocals of zero.

Complex values of the symbols and complex functions for the built-in ones give every atom its
principal value.  `Valuation.principal` is the valuation that this makes.  It is lawful at an atom as
soon as the parts of the atom have values other than zero (`Valuation.lawful_principal_root`,
`Valuation.lawful_principal_radical`, `Valuation.lawful_principal_reciprocal`), so valuations exist for
any values of the symbols.
-/

namespace Resolvent

/-- Values of the atoms in a field, with the laws of roots. -/
structure Valuation (K : Type*) [Field K] where
  /-- The value of an atom. -/
  toFun : Atom → K
  /-- The imaginary unit is a square root of -1. -/
  imaginaryUnit_sq : toFun .imaginaryUnit ^ 2 = -1
  /-- A root is a root. -/
  root_pow : ∀ {q : Rat} {n : Nat}, 0 < q → 2 ≤ n → toFun (.root q n) ^ n = q
  /-- The root of a product is the product of the roots. -/
  root_mul : ∀ {q r : Rat} {n : Nat}, 0 < q → 0 < r → 2 ≤ n →
    toFun (.root (q * r) n) = toFun (.root q n) * toFun (.root r n)
  /-- The root of a power is its base. -/
  root_of_pow : ∀ {q : Rat} {n : Nat}, 0 < q → 2 ≤ n → toFun (.root (q ^ n) n) = q

namespace Valuation

variable {K : Type*} [Field K]

instance : CoeFun (Valuation K) fun _ => Atom → K := ⟨toFun⟩

/-- The atom has a value other than zero that satisfies its defining equation. -/
def Lawful (v : Valuation K) : Atom → Prop
  | .root q n => 0 < q ∧ 2 ≤ n
  | .radical f n => 2 ≤ n ∧ v (.radical f n) ≠ 0 ∧ v (.radical f n) ^ n = f.value v
  | .reciprocal f => v (.reciprocal f) * f.value v = 1
  | a => v a ≠ 0

variable (v : Valuation K)

theorem imaginaryUnit_ne_zero : v .imaginaryUnit ≠ 0 := by
  intro h
  have hsq := v.imaginaryUnit_sq
  rw [h] at hsq
  norm_num at hsq

/-! ### Roots -/

variable {q : Rat} {n : Nat}

theorem root_one (hn : 2 ≤ n) : v (.root 1 n) = 1 := by
  have h := v.root_of_pow one_pos hn
  rwa [one_pow, Rat.cast_one] at h

theorem root_powNat (hq : 0 < q) (hn : 2 ≤ n) (m : Nat) :
    v (.root (q ^ m) n) = v (.root q n) ^ m := by
  induction m with
  | zero => rw [pow_zero, pow_zero, v.root_one hn]
  | succ m ih => rw [pow_succ, v.root_mul (pow_pos hq m) hq hn, ih, pow_succ]

/-- The root of `t ^ n * u` is `t` times the root of `u`. -/
theorem root_pow_mul {t u : Rat} (ht : 0 < t) (hu : 0 < u) (hn : 2 ≤ n) :
    v (.root (t ^ n * u) n) = t * v (.root u n) := by
  rw [v.root_mul (pow_pos ht n) hu hn, v.root_of_pow ht hn]

variable [CharZero K]

theorem root_ne_zero (hq : 0 < q) (hn : 2 ≤ n) : v (.root q n) ≠ 0 := by
  intro h
  have hpow := v.root_pow hq hn
  rw [h, zero_pow (by omega)] at hpow
  exact hq.ne (by exact_mod_cast hpow)

/-- A power of a root is a whole power of the radicand times the root of the rest. -/
theorem root_zpow (hq : 0 < q) (hn : 2 ≤ n) (k : Int) :
    v (.root q n) ^ k = ((q ^ (k / n) : Rat) : K) * v (.root (q ^ (k % n)) n) := by
  have hne := v.root_ne_zero hq hn
  have hrest : 0 ≤ k % n := Int.emod_nonneg k (by omega)
  calc v (.root q n) ^ k
      = v (.root q n) ^ ((n : Int) * (k / n) + k % n) := by rw [Int.mul_ediv_add_emod]
    _ = (v (.root q n) ^ n) ^ (k / n) * v (.root q n) ^ (k % n) := by
        rw [zpow_add₀ hne, zpow_mul, zpow_natCast]
    _ = ((q ^ (k / n) : Rat) : K) * v (.root (q ^ (k % n)) n) := by
        rw [v.root_pow hq hn, Rat.cast_zpow]
        congr 1
        obtain ⟨m, hm⟩ := Int.eq_ofNat_of_zero_le hrest
        rw [hm, zpow_natCast, zpow_natCast, v.root_powNat hq hn]

variable {v} in
theorem Lawful.ne_zero {a : Atom} (h : v.Lawful a) : v a ≠ 0 := by
  cases a with
  | root q n => exact v.root_ne_zero h.1 h.2
  | radical f n => exact h.2.1
  | reciprocal f => exact left_ne_zero_of_mul_eq_one h
  | _ => exact h

end Valuation

/-! ### Exponents that fit a word -/

namespace Form

/-- The exponent of a factor fits a word of 32 bits, and so does what is left of it once the whole
powers of a root or a radical are taken out. -/
def Fits : Atom × Int → Prop
  | (.root _ n, k) | (.radical _ n, k) => Width.isInt32 k = true ∧ Width.isInt32 (k % n) = true
  | (_, k) => Width.isInt32 k = true

theorem Fits.isInt32 {x : Atom × Int} (h : Fits x) : Width.isInt32 x.2 = true := by
  obtain ⟨a, k⟩ := x
  cases a with
  | root => exact h.1
  | radical => exact h.1
  | _ => exact h

theorem clamp32_eq {k : Int} (h : Width.isInt32 k = true) : Width.clamp32 k = k := by
  simp only [Width.isInt32, decide_eq_true_eq] at h
  exact Width.clamp32_of_mem h.1 h.2

end Form

/-! ### Principal values -/

variable (x : Nat → ℂ) (functions : Builtin → List ℂ → ℂ)

mutual

/-- The principal value of an atom. -/
noncomputable def Atom.principal : Atom → ℂ
  | .symbol i => x i
  | .pi => Real.pi
  | .e => (Real.exp 1 : ℝ)
  | .imaginaryUnit => Complex.I
  | .root q n => (((q : ℝ) ^ ((n : ℝ)⁻¹) : ℝ) : ℂ)
  | .radical ⟨terms⟩ n => Form.principalTerms terms ^ ((n : ℂ)⁻¹)
  | .apply f args => functions f (Form.principalAll args)
  | .power ⟨base⟩ ⟨exponent⟩ => Form.principalTerms base ^ Form.principalTerms exponent
  | .reciprocal ⟨terms⟩ => (Form.principalTerms terms)⁻¹

/-- The product of the powers of the principal values of atoms. -/
noncomputable def Monomial.principalFactors : List (Atom × Int) → ℂ
  | [] => 1
  | (a, k) :: factors => Atom.principal a ^ k * Monomial.principalFactors factors

/-- The sum of the principal values of terms. -/
noncomputable def Form.principalTerms : List (Monomial × Rat) → ℂ
  | [] => 0
  | (⟨factors⟩, q) :: terms => q * Monomial.principalFactors factors + Form.principalTerms terms

/-- The principal values of forms. -/
noncomputable def Form.principalAll : List Form → List ℂ
  | [] => []
  | ⟨terms⟩ :: fs => Form.principalTerms terms :: Form.principalAll fs

end

theorem Monomial.principalFactors_eq (factors : List (Atom × Int)) :
    principalFactors x functions factors = factorsValue (Atom.principal x functions) factors := by
  induction factors with
  | nil => rw [principalFactors, factorsValue_nil]
  | cons y factors ih => rw [principalFactors, ih, factorsValue_cons]

theorem Form.principalTerms_eq (terms : List (Monomial × Rat)) :
    principalTerms x functions terms = termsValue (Atom.principal x functions) terms := by
  induction terms with
  | nil => rw [principalTerms, termsValue_nil]
  | cons t terms ih =>
    obtain ⟨⟨factors⟩, q⟩ := t
    rw [principalTerms, ih, Monomial.principalFactors_eq, termsValue_cons, Monomial.value]

theorem Atom.principal_radical (f : Form) (n : Nat) :
    Atom.principal x functions (.radical f n) =
      f.value (Atom.principal x functions) ^ ((n : ℂ)⁻¹) := by
  obtain ⟨terms⟩ := f
  rw [Atom.principal, Form.principalTerms_eq, Form.value]

theorem Atom.principal_reciprocal (f : Form) :
    Atom.principal x functions (.reciprocal f) = (f.value (Atom.principal x functions))⁻¹ := by
  obtain ⟨terms⟩ := f
  rw [Atom.principal, Form.principalTerms_eq, Form.value]

theorem Atom.principal_power (f g : Form) :
    Atom.principal x functions (.power f g) =
      f.value (Atom.principal x functions) ^ g.value (Atom.principal x functions) := by
  obtain ⟨base⟩ := f
  obtain ⟨exponent⟩ := g
  rw [Atom.principal, Form.principalTerms_eq, Form.principalTerms_eq, Form.value, Form.value]

namespace Valuation

/-- The principal values of the atoms. -/
noncomputable def principal : Valuation ℂ where
  toFun := Atom.principal x functions
  imaginaryUnit_sq := by rw [Atom.principal, Complex.I_sq]
  root_pow := by
    intro q n hq hn
    have hq' : (0 : ℝ) ≤ q := by exact_mod_cast hq.le
    rw [Atom.principal, ← Complex.ofReal_pow, Real.rpow_inv_natCast_pow hq' (by omega),
      Complex.ofReal_ratCast]
  root_mul := by
    intro q r n hq hr _
    have hq' : (0 : ℝ) ≤ q := by exact_mod_cast hq.le
    have hr' : (0 : ℝ) ≤ r := by exact_mod_cast hr.le
    rw [Atom.principal, Atom.principal, Atom.principal, Rat.cast_mul, Real.mul_rpow hq' hr',
      Complex.ofReal_mul]
  root_of_pow := by
    intro q n hq hn
    have hq' : (0 : ℝ) ≤ q := by exact_mod_cast hq.le
    rw [Atom.principal, Rat.cast_pow, Real.pow_rpow_inv_natCast hq' (by omega),
      Complex.ofReal_ratCast]

theorem lawful_principal_root {q : Rat} {n : Nat} (hq : 0 < q) (hn : 2 ≤ n) :
    (principal x functions).Lawful (.root q n) := ⟨hq, hn⟩

theorem lawful_principal_radical {f : Form} {n : Nat} (hn : 2 ≤ n)
    (hf : f.value (principal x functions) ≠ 0) :
    (principal x functions).Lawful (.radical f n) := by
  have hvalue := Atom.principal_radical x functions f n
  refine ⟨hn, ?_, ?_⟩
  · change Atom.principal x functions (.radical f n) ≠ 0
    rw [hvalue]
    exact (Complex.cpow_ne_zero_iff_of_exponent_ne_zero
      (inv_ne_zero (Nat.cast_ne_zero.2 (by omega)))).2 hf
  · change Atom.principal x functions (.radical f n) ^ n = _
    rw [hvalue]
    exact Complex.cpow_nat_inv_pow _ (by omega)

theorem lawful_principal_reciprocal {f : Form} (hf : f.value (principal x functions) ≠ 0) :
    (principal x functions).Lawful (.reciprocal f) := by
  have hvalue := Atom.principal_reciprocal x functions f
  change Atom.principal x functions (.reciprocal f) * f.value (principal x functions) = 1
  rw [hvalue]
  exact inv_mul_cancel₀ hf

end Valuation

end Resolvent

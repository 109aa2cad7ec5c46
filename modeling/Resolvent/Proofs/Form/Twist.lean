import Resolvent.Proofs.Form.NormalForm
import Resolvent.Proofs.Form.Valuation
import Mathlib.Analysis.SpecialFunctions.Complex.Circle
import Mathlib.LinearAlgebra.LinearIndependent.Basic
import Mathlib.NumberTheory.Padics.PadicVal.Basic
import Mathlib.RingTheory.RootsOfUnity.Complex

/-!
# Twists of valuations

The laws of a valuation leave it some freedom: the imaginary unit may change its sign, roots may be
multiplied by roots of unity, and other atoms by anything.  `Twist` is the monoid of the changes that
respect the laws, and `Valuation.twist` applies one.

Monomials are characters of this monoid, and different monomials are different characters as long as
their radicands are free of perfect powers (`Monomial.character_injective`).  Characters are linearly
independent, so a form of such monomials that has the value zero under all twists of a valuation is
zero (`Form.eq_zero_of_value_twist`).
-/

namespace Resolvent

variable {K : Type*} [Field K]

/-! ### Changes of values -/

/-- Factors for the values of the atoms that respect the laws of a valuation. -/
@[ext]
structure Twist (K : Type*) [Field K] where
  /-- The factor for the value of an atom. -/
  toFun : Atom → Kˣ
  /-- The imaginary unit stays, or becomes its opposite. -/
  imaginaryUnit_sq : toFun .imaginaryUnit ^ 2 = 1
  /-- The root of a product stays the product of the roots. -/
  root_mul : ∀ {q r : Rat} {n : Nat}, 0 < q → 0 < r → 2 ≤ n →
    toFun (.root (q * r) n) = toFun (.root q n) * toFun (.root r n)
  /-- The root of a power stays its base. -/
  root_of_pow : ∀ {q : Rat} {n : Nat}, 0 < q → 2 ≤ n → toFun (.root (q ^ n) n) = 1

namespace Twist

instance : CoeFun (Twist K) fun _ => Atom → Kˣ := ⟨toFun⟩

instance : MulOneClass (Twist K) where
  one :=
    { toFun := 1
      imaginaryUnit_sq := one_pow 2
      root_mul := fun _ _ _ => (mul_one 1).symm
      root_of_pow := fun _ _ => rfl }
  mul s t :=
    { toFun := s.toFun * t.toFun
      imaginaryUnit_sq := by
        rw [Pi.mul_apply, mul_pow, s.imaginaryUnit_sq, t.imaginaryUnit_sq, mul_one]
      root_mul := fun hq hr hn => by
        rw [Pi.mul_apply, s.root_mul hq hr hn, t.root_mul hq hr hn, Pi.mul_apply, Pi.mul_apply,
          mul_mul_mul_comm]
      root_of_pow := fun hq hn => by
        rw [Pi.mul_apply, s.root_of_pow hq hn, t.root_of_pow hq hn, mul_one] }
  one_mul t := Twist.ext (one_mul t.toFun)
  mul_one t := Twist.ext (mul_one t.toFun)

theorem one_apply (a : Atom) : (1 : Twist K) a = 1 := rfl

theorem mul_apply (s t : Twist K) (a : Atom) : (s * t) a = s a * t a := rfl

variable (t : Twist K) {q : Rat} {n : Nat}

theorem root_powNat (hq : 0 < q) (hn : 2 ≤ n) (m : Nat) :
    t (.root (q ^ m) n) = t (.root q n) ^ m := by
  induction m with
  | zero =>
    have h := t.root_of_pow one_pos hn
    rw [one_pow] at h
    rw [pow_zero, pow_zero, h]
  | succ m ih => rw [pow_succ, t.root_mul (pow_pos hq m) hq hn, ih, pow_succ]

/-- Roots are multiplied by roots of unity. -/
theorem root_pow (hq : 0 < q) (hn : 2 ≤ n) : t (.root q n) ^ n = 1 := by
  rw [← t.root_powNat hq hn, t.root_of_pow hq hn]

end Twist

/-- The values of a valuation, changed by a twist. -/
def Valuation.twist (v : Valuation K) (t : Twist K) : Valuation K where
  toFun a := v a * (t a : K)
  imaginaryUnit_sq := by
    rw [mul_pow, v.imaginaryUnit_sq, ← Units.val_pow_eq_pow_val, t.imaginaryUnit_sq,
      Units.val_one, mul_one]
  root_pow := by
    intro q n hq hn
    rw [mul_pow, v.root_pow hq hn, ← Units.val_pow_eq_pow_val, t.root_pow hq hn, Units.val_one,
      mul_one]
  root_mul := by
    intro q r n hq hr hn
    rw [v.root_mul hq hr hn, t.root_mul hq hr hn, Units.val_mul, mul_mul_mul_comm]
  root_of_pow := by
    intro q n hq hn
    rw [v.root_of_pow hq hn, t.root_of_pow hq hn, Units.val_one, mul_one]

theorem Valuation.twist_apply (v : Valuation K) (t : Twist K) (a : Atom) :
    v.twist t a = v a * (t a : K) := rfl

/-! ### Monomials as characters -/

namespace Monomial

/-- What a twist multiplies the value of a monomial by. -/
def character (K : Type*) [Field K] (m : Monomial) : Twist K →* K where
  toFun t := factorsValue (fun a => (t a : K)) m.factors
  map_one' := by
    exact factorsValue_eq_one fun x _ => Units.val_one
  map_mul' s t := by
    obtain ⟨factors⟩ := m
    dsimp only
    induction factors with
    | nil => rw [factorsValue_nil, factorsValue_nil, factorsValue_nil, one_mul]
    | cons x factors ih =>
      rw [factorsValue_cons, ih, factorsValue_cons, factorsValue_cons]
      simp only [Twist.mul_apply, Units.val_mul, mul_zpow]
      ring

theorem character_apply (m : Monomial) (t : Twist K) :
    m.character K t = factorsValue (fun a => (t a : K)) m.factors := rfl

theorem value_twist (v : Valuation K) (t : Twist K) (m : Monomial) :
    m.value (v.twist t) = m.value v * m.character K t := by
  obtain ⟨factors⟩ := m
  change factorsValue (v.twist t) factors =
    factorsValue v factors * factorsValue (fun a => (t a : K)) factors
  induction factors with
  | nil => rw [factorsValue_nil, factorsValue_nil, factorsValue_nil, one_mul]
  | cons x factors ih =>
    rw [factorsValue_cons, ih, factorsValue_cons, factorsValue_cons, Valuation.twist_apply, mul_zpow]
    ring

/-- A value that is one at all atoms but one. -/
theorem factorsValue_update (a : Atom) (z : K) (factors : List (Atom × Int)) (hz : z ≠ 0) :
    factorsValue (Function.update (fun _ => 1) a z) factors = z ^ exponentSum a factors := by
  induction factors with
  | nil => rw [factorsValue_nil, exponentSum_nil, zpow_zero]
  | cons x factors ih =>
    rw [factorsValue_cons, ih, exponentSum_cons, zpow_add₀ hz]
    congr 1
    by_cases h : x.1 = a
    · rw [h, Function.update_self, if_pos rfl]
    · rw [Function.update_of_ne h, if_neg h, one_zpow, zpow_zero]

end Monomial

/-! ### Twists at one atom and at one prime -/

namespace Twist

/-- The twist that multiplies the value of one atom that is no root. -/
def single (a : Atom) (z : Kˣ) (hunit : a = .imaginaryUnit → z ^ 2 = 1)
    (hroot : ∀ q n, a ≠ .root q n) : Twist K where
  toFun := Function.update 1 a z
  imaginaryUnit_sq := by
    by_cases h : a = .imaginaryUnit
    · rw [h, Function.update_self, hunit h]
    · rw [Function.update_of_ne (Ne.symm h), Pi.one_apply, one_pow]
  root_mul := by
    intro q r n _ _ _
    simp [Function.update_of_ne (hroot _ _).symm]
  root_of_pow := by
    intro q n _ _
    simp [Function.update_of_ne (hroot _ _).symm]

/-- The twist that multiplies the roots of a prime with one index, and no other roots of primes. -/
def ofPrime (ζ : Kˣ) {n : Nat} (hζ : ζ ^ n = 1) (p : Nat) [Fact p.Prime] : Twist K where
  toFun
    | .root q m => if m = n then ζ ^ padicValRat p q else 1
    | _ => 1
  imaginaryUnit_sq := one_pow 2
  root_mul := by
    intro q r m hq hr _
    dsimp only
    split
    · rw [padicValRat.mul hq.ne' hr.ne', zpow_add]
    · rw [mul_one]
  root_of_pow := by
    intro q m hq _
    dsimp only
    split
    · next h => rw [padicValRat.pow, h, zpow_mul, zpow_natCast, hζ, one_zpow]
    · rfl

end Twist

namespace Monomial

theorem character_single (m : Monomial) {a : Atom} {z : Kˣ} (hunit : a = .imaginaryUnit → z ^ 2 = 1)
    (hroot : ∀ q n, a ≠ .root q n) :
    m.character K (.single a z hunit hroot) = (z : K) ^ exponentSum a m.factors := by
  rw [← factorsValue_update a (z : K) m.factors z.ne_zero, character_apply]
  congr 1
  funext b
  by_cases h : b = a
  · rw [h]
    simp [Twist.single]
  · simp [Twist.single, Function.update_of_ne h]

/-- The factors are arranged, and the radicands are whole numbers that no power of a prime with the
index for its exponent divides. -/
structure PowerFree (m : Monomial) : Prop where
  /-- The factors are arranged. -/
  arranged : m.Arranged
  /-- Radicands are whole numbers free of perfect powers. -/
  radicand : ∀ {q : Rat} {n : Nat} {k : Int}, (.root q n, k) ∈ m.factors →
    2 ≤ n ∧ ∃ u : Nat, q = u ∧ 1 < u ∧ ∀ p : Nat, p.Prime → ¬ p ^ n ∣ u

variable {m l : Monomial}

/-- What the twists at primes tell of a monomial: the radicand of an index, one if there is no root
with that index. -/
theorem PowerFree.exists_radicand (h : m.PowerFree) {n : Nat} (hn : 2 ≤ n) :
    ∃ u : Nat, 0 < u ∧ (∀ p : Nat, p.Prime → ¬ p ^ n ∣ u) ∧
      (∀ (q : Rat) k, (.root q n, k) ∈ m.factors ↔ u ≠ 1 ∧ q = u ∧ k = 1) ∧
      ∀ (ζ : Kˣ) (hζ : ζ ^ n = 1) (p : Nat) [Fact p.Prime],
        m.character K (.ofPrime ζ hζ p) = (ζ : K) ^ padicValNat p u := by
  by_cases hroot : ∃ q k, (.root q n, k) ∈ m.factors
  · obtain ⟨q, k, hmem⟩ := hroot
    obtain ⟨-, u, rfl, hu, hfree⟩ := h.radicand hmem
    obtain rfl : k = 1 := h.arranged.exponents _ hmem
    refine ⟨u, by omega, hfree, fun r l => ⟨fun hr => ?_, ?_⟩, fun ζ hζ p _ => ?_⟩
    · exact ⟨by omega, (h.arranged.roots hr hmem), h.arranged.exponents _ hr⟩
    · rintro ⟨-, rfl, rfl⟩
      exact hmem
    · rw [character_apply,
        factorsValue_eq_of_mem h.arranged.sorted.pairwise_ne hmem fun y hy hne => ?_]
      · simp [Twist.ofPrime, padicValRat.of_nat]
      · -- no other factor is a root with the index
        obtain ⟨a, k⟩ := y
        cases a with
        | root r j =>
          have hj : j ≠ n := by
            rintro rfl
            exact hne (by rw [h.arranged.roots hy hmem])
          simp [Twist.ofPrime, hj]
        | _ => rfl
  · refine ⟨1, one_pos, fun p hp hdvd => ?_, fun q k => ⟨fun hr => absurd ⟨q, k, hr⟩ hroot, ?_⟩,
      fun ζ hζ p _ => ?_⟩
    · have hone := Nat.pow_eq_one.1 (Nat.dvd_one.1 hdvd)
      have := hp.one_lt
      omega
    · rintro ⟨hne, -⟩
      exact absurd rfl hne
    · rw [padicValNat_one_right, pow_zero, character_apply]
      refine factorsValue_eq_one fun y hy => ?_
      obtain ⟨a, k⟩ := y
      cases a with
      | root r j =>
        have hj : j ≠ n := by
          rintro rfl
          exact hroot ⟨r, k, hy⟩
        simp [Twist.ofPrime, hj]
      | _ => simp [Twist.ofPrime]

theorem Arranged.ne_zero (h : m.Arranged) {x : Atom × Int} (hx : x ∈ m.factors) : x.2 ≠ 0 := by
  have hfits := h.exponents x hx
  obtain ⟨a, k⟩ := x
  cases a with
  | radical f n => exact (hfits.1).ne'
  | root q n =>
    have hk : k = 1 := hfits
    omega
  | imaginaryUnit =>
    have hk : k = 1 := hfits
    omega
  | _ => exact hfits

theorem Arranged.exponentSum_imaginaryUnit (h : m.Arranged) :
    exponentSum .imaginaryUnit m.factors = 0 ∨ exponentSum .imaginaryUnit m.factors = 1 := by
  by_cases hunit : ∃ k, (.imaginaryUnit, k) ∈ m.factors
  · obtain ⟨k, hk⟩ := hunit
    right
    rw [exponentSum_eq_of_mem h.sorted.pairwise_ne hk]
    exact h.exponents _ hk
  · left
    exact exponentSum_eq_zero fun x hx heq => hunit ⟨x.2, heq ▸ hx⟩

/-- The exponents of atoms that are no roots can be told from the character. -/
theorem Arranged.exponentSum_eq (hm : m.Arranged) (hl : l.Arranged)
    (h : m.character ℂ = l.character ℂ) {a : Atom} (hroot : ∀ q n, a ≠ .root q n) :
    exponentSum a m.factors = exponentSum a l.factors := by
  by_cases hunit : a = .imaginaryUnit
  · have heq := DFunLike.congr_fun h
      (.single a (-1) (fun _ => neg_one_sq) hroot)
    rw [character_single, character_single] at heq
    rw [hunit] at heq ⊢
    rcases hm.exponentSum_imaginaryUnit with hi | hi <;>
      rcases hl.exponentSum_imaginaryUnit with hj | hj <;> rw [hi, hj] at heq ⊢
    · norm_num at heq
    · norm_num at heq
  · have heq := DFunLike.congr_fun h
      (.single a (Units.mk0 2 two_ne_zero) (fun h => absurd h hunit) hroot)
    rw [character_single, character_single] at heq
    have hnorm := congrArg norm heq
    rw [norm_zpow, norm_zpow, Units.val_mk0, Complex.norm_two] at hnorm
    exact zpow_right_injective₀ two_pos (by norm_num) hnorm

/-- The roots can be told from the character. -/
theorem PowerFree.root_mem_iff (hm : m.PowerFree) (hl : l.PowerFree)
    (h : m.character ℂ = l.character ℂ) {q : Rat} {n : Nat} {k : Int} (hn : 2 ≤ n) :
    (.root q n, k) ∈ m.factors ↔ (.root q n, k) ∈ l.factors := by
  obtain ⟨u, hu, hufree, humem, huchar⟩ := hm.exists_radicand (K := ℂ) hn
  obtain ⟨w, hw, hwfree, hwmem, hwchar⟩ := hl.exists_radicand (K := ℂ) hn
  have hprimitive := Complex.isPrimitiveRoot_exp n (by omega)
  obtain ⟨ζ, hζ⟩ := hprimitive.isUnit (by omega)
  rw [← hζ] at hprimitive
  have hpow : ζ ^ n = 1 := by
    ext
    rw [Units.val_pow_eq_pow_val, hprimitive.pow_eq_one, Units.val_one]
  -- both radicands have each prime less often than the index says, and equally often up to it
  have hval : ∀ p : Nat, p.Prime → padicValNat p u = padicValNat p w := by
    intro p hp
    have : Fact p.Prime := ⟨hp⟩
    have hlt : ∀ {x : Nat}, 0 < x → ¬ p ^ n ∣ x → padicValNat p x < n := by
      intro x hx hfree
      by_contra hge
      exact hfree ((padicValNat_dvd_iff_le hx.ne').2 (not_lt.1 hge))
    refine hprimitive.pow_inj (hlt hu (hufree p hp)) (hlt hw (hwfree p hp)) ?_
    rw [← huchar ζ hpow p, ← hwchar ζ hpow p, h]
  have heq : u = w := by
    refine Nat.eq_of_factorization_eq hu.ne' hw.ne' fun p => ?_
    by_cases hp : p.Prime
    · rw [Nat.factorization_def _ hp, Nat.factorization_def _ hp, hval p hp]
    · rw [Nat.factorization_eq_zero_of_not_prime _ hp, Nat.factorization_eq_zero_of_not_prime _ hp]
  rw [humem, hwmem, heq]

/-- **Monomials free of perfect powers are different characters.** -/
theorem character_injective (hm : m.PowerFree) (hl : l.PowerFree)
    (h : m.character ℂ = l.character ℂ) : m = l := by
  have hsub : ∀ {m l : Monomial}, m.PowerFree → l.PowerFree → m.character ℂ = l.character ℂ →
      ∀ x ∈ m.factors, x ∈ l.factors := by
    rintro m l hm hl h ⟨a, k⟩ hx
    by_cases hroot : ∃ q n, a = .root q n
    · obtain ⟨q, n, rfl⟩ := hroot
      exact (hm.root_mem_iff hl h (hm.radicand hx).1).1 hx
    · have hne : k ≠ 0 := hm.arranged.ne_zero hx
      have hsum := hm.arranged.exponentSum_eq hl.arranged h fun q n heq => hroot ⟨q, n, heq⟩
      rw [exponentSum_eq_of_mem hm.arranged.sorted.pairwise_ne hx] at hsum
      exact (mem_iff_exponentSum hl.arranged.sorted.pairwise_ne hne).2 hsum.symm
  obtain ⟨factors⟩ := m
  obtain ⟨factors'⟩ := l
  exact congrArg Monomial.mk (hm.arranged.sorted.eq_of_mem_iff hl.arranged.sorted fun x =>
    ⟨hsub hm hl h x, hsub hl hm h.symm x⟩)

end Monomial

/-! ### Forms -/

namespace Form

theorem termsValue_eq_sum (v : Atom → K) (terms : List (Monomial × Rat)) :
    termsValue v terms =
      ∑ i : Fin terms.length, ((terms.get i).2 : K) * (terms.get i).1.value v :=
  (Fin.sum_univ_fun_getElem terms fun t => (t.2 : K) * t.1.value v).symm

/-- **A form is zero when it is worth nothing under all twists**, as long as its monomials are free
of perfect powers. -/
theorem eq_zero_of_value_twist {v : Valuation ℂ} {f : Form} (hsorted : f.Sorted)
    (hover : f.Over fun m => m.PowerFree ∧ m.value v ≠ 0)
    (h : ∀ t : Twist ℂ, f.value (v.twist t) = 0) : f = zero := by
  obtain ⟨terms⟩ := f
  have hmem : ∀ i, terms.get i ∈ terms := List.get_mem terms
  have hinjective : Function.Injective fun i => (terms.get i).1.character ℂ := by
    intro i j hij
    have heq := Monomial.character_injective (hover _ (hmem i)).2.1 (hover _ (hmem j)).2.1 hij
    -- a monomial is not smaller than itself
    have hself : ¬ (terms.get i).1.order (terms.get j).1 = .lt ∧
        ¬ (terms.get j).1.order (terms.get i).1 = .lt := by
      rw [heq, Monomial.order_self]
      exact ⟨nofun, nofun⟩
    rw [Form.Sorted, List.pairwise_iff_get] at hsorted
    rcases lt_trichotomy i j with hlt | rfl | hlt
    · exact absurd (hsorted i j hlt) hself.1
    · rfl
    · exact absurd (hsorted j i hlt) hself.2
  have hindependent := (linearIndependent_monoidHom (Twist ℂ) ℂ).comp _ hinjective
  rw [Fintype.linearIndependent_iff] at hindependent
  have hzero := hindependent (fun i => (terms.get i).2 * (terms.get i).1.value v) (by
    funext t
    have hvalue := h t
    rw [value, termsValue_eq_sum] at hvalue
    simp only [Monomial.value_twist] at hvalue
    simpa [mul_assoc] using hvalue)
  by_contra hne
  obtain ⟨t, ht⟩ := List.exists_mem_of_ne_nil terms fun hnil => hne (by rw [hnil]; rfl)
  obtain ⟨i, rfl⟩ := List.get_of_mem ht
  obtain ⟨hq, -, hm⟩ := hover _ ht
  exact mul_ne_zero (by exact_mod_cast hq) hm (hzero i)

end Form

end Resolvent

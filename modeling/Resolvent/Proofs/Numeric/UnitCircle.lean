import Mathlib.Analysis.Real.Pi.Irrational
import Mathlib.Analysis.SpecialFunctions.Complex.Circle
import Mathlib.NumberTheory.Transcendental.Lindemann.AnalyticalPart
import Mathlib.NumberTheory.Zsqrtd.GaussianInt
import Mathlib.RingTheory.SimpleRing.Principal
import Mathlib.Topology.Algebra.Order.Floor

/-!
# Points of the unit circle with rational arguments

The point of the unit circle with a rational argument other than zero does not have two rational
coordinates (`UnitCircle.coe_exp_ne`).  Hermite's method gives, for each large prime `p`, an integer
that `p` does not divide such that its product with the exponential is nearly `p` times a polynomial
in the argument.  Cleared of denominators, the difference is a whole Gaussian number that is less than
one, so it is zero, and `p` would divide the coordinates.
-/

namespace Resolvent.UnitCircle

open GaussianInt (toComplex)
open Polynomial (C X aeval)

/-- A whole Gaussian number whose modulus is less than one is zero. -/
theorem eq_zero_of_norm_lt_one {w : GaussianInt} (h : ‖toComplex w‖ < 1) : w = 0 := by
  have hnorm : (w.norm : ℝ) < 1 := by
    rw [GaussianInt.intCast_real_norm, ← Complex.sq_norm]
    exact pow_lt_one₀ (norm_nonneg _) h two_ne_zero
  have hnorm : w.norm < 1 := by exact_mod_cast hnorm
  exact GaussianInt.norm_eq_zero.1 (by linarith [GaussianInt.norm_nonneg w])

/-- A polynomial in a fraction of a whole number and the imaginary unit is cleared of its denominators by a
power of the denominator. -/
theorem exists_pow_mul_aeval (g : Polynomial ℤ) (a : ℤ) {b : ℕ} (hb : b ≠ 0) {m : ℕ}
    (hm : g.natDegree ≤ m) :
    ∃ w : GaussianInt, toComplex w = (b : ℂ) ^ m * aeval (a / b * Complex.I : ℂ) g := by
  change (b : ℂ) ^ m * aeval (a / b * Complex.I : ℂ) g ∈ toComplex.range
  have hb : (b : ℂ) ≠ 0 := Nat.cast_ne_zero.2 hb
  have hunit : Complex.I ∈ toComplex.range := ⟨⟨0, 1⟩, by simp [GaussianInt.toComplex_def]⟩
  rw [Polynomial.aeval_eq_sum_range' (Nat.lt_succ_of_le hm), Finset.mul_sum]
  refine Subring.sum_mem _ fun i hi => ?_
  have hi : i ≤ m := Nat.lt_succ_iff.1 (Finset.mem_range.1 hi)
  have hterm : (b : ℂ) ^ m * (g.coeff i • (a / b * Complex.I : ℂ) ^ i) =
      g.coeff i * ((b : ℂ) ^ (m - i) * ((a : ℂ) * Complex.I) ^ i) := by
    rw [zsmul_eq_mul, div_mul_eq_mul_div, div_pow, ← Nat.sub_add_cancel hi, pow_add,
      Nat.add_sub_cancel]
    field_simp
  rw [hterm]
  exact mul_mem (intCast_mem _ _) (mul_mem (pow_mem (natCast_mem _ _) _)
    (pow_mem (mul_mem (intCast_mem _ _) hunit) _))

/-- There are primes as large as one likes for which the factorial outgrows the powers. -/
theorem exists_prime_pow_lt (N : ℕ) (d : ℝ) {b : ℝ} (hb : b ≠ 0) (c : ℝ) :
    ∃ p, p.Prime ∧ N < p ∧ d * b ^ (2 * p - 1) * (c ^ p / ((p - 1).factorial : ℝ)) < 1 := by
  have hlimit := FloorSemiring.tendsto_mul_pow_div_factorial_sub_atTop (d / b) (b ^ 2 * c) 1
  obtain ⟨K, hK⟩ := Filter.eventually_atTop.1 (hlimit.eventually (gt_mem_nhds one_pos))
  obtain ⟨p, hp, hprime⟩ := Nat.exists_infinite_primes (max (N + 1) K)
  refine ⟨p, hprime, by omega, ?_⟩
  have hpower : b ^ (2 * p - 1) = b ^ (2 * p) / b := by
    rw [pow_sub₀ b hb (by have := hprime.two_le; omega), pow_one, div_eq_mul_inv]
  calc d * b ^ (2 * p - 1) * (c ^ p / ((p - 1).factorial : ℝ))
      = d / b * (b ^ 2 * c) ^ p / ((p - 1).factorial : ℝ) := by
        rw [hpower, mul_pow, ← pow_mul]
        ring
    _ < 1 := hK p (by omega)

/-- A whole Gaussian number with small coordinates is zero if a large prime divides a multiple of it
by a number that the prime does not divide. -/
theorem eq_zero_of_prime_mul_eq {p b : ℕ} (hp : p.Prime) {n : ℤ} (hn : ¬ (p : ℤ) ∣ n) (hb : b ≠ 0)
    (hbp : b < p) {w v : GaussianInt} (hre : w.re.natAbs < p) (him : w.im.natAbs < p) {m : ℕ}
    (h : ((n * b ^ m : ℤ) : GaussianInt) * w = ((p : ℤ) : GaussianInt) * v) : w = 0 := by
  have hprime : Prime (p : ℤ) := Nat.prime_iff_prime_int.1 hp
  have hcoprime : ¬ (p : ℤ) ∣ n * b ^ m := fun hdvd => (hprime.dvd_or_dvd hdvd).elim hn fun hpow =>
    (Nat.le_of_dvd (Nat.pos_of_ne_zero hb) (by exact_mod_cast hprime.dvd_of_dvd_pow hpow)).not_gt hbp
  have hzero : ∀ {t : ℤ}, t.natAbs < p → (p : ℤ) ∣ n * b ^ m * t → t = 0 := by
    intro t ht hdvd
    have hdvd := (hprime.dvd_or_dvd hdvd).resolve_left hcoprime
    exact Int.eq_zero_of_dvd_of_natAbs_lt_natAbs hdvd (by simpa using ht)
  obtain ⟨hdvd, hdvd'⟩ := (Zsqrtd.intCast_dvd (p : ℤ) _).1 ⟨v, h⟩
  rw [Zsqrtd.re_smul] at hdvd
  rw [Zsqrtd.im_smul] at hdvd'
  exact Zsqrtd.ext (hzero hre hdvd) (hzero him hdvd')

/-- A number with rational coordinates is cleared of its denominators. -/
theorem exists_toComplex_eq (q r : ℚ) :
    ∃ w : GaussianInt, toComplex w = (q.den * r.den : ℝ) * (q + r * Complex.I : ℂ) := by
  refine ⟨⟨q.num * r.den, r.num * q.den⟩, ?_⟩
  have hq : (q.den : ℂ) * q = q.num := by
    exact_mod_cast congrArg (Rat.cast (K := ℂ)) (Rat.den_mul_eq_num q)
  have hr : (r.den : ℂ) * r = r.num := by
    exact_mod_cast congrArg (Rat.cast (K := ℂ)) (Rat.den_mul_eq_num r)
  rw [GaussianInt.toComplex_def']
  push_cast
  rw [← hq, ← hr]
  ring

/-- The product of the imaginary unit with a rational number other than zero is a root of a
polynomial of degree two with whole coefficients. -/
theorem exists_mem_aroots {θ : ℚ} (hθ : θ ≠ 0) :
    ∃ f : Polynomial ℤ, f.natDegree = 2 ∧ f.eval 0 ≠ 0 ∧
      (θ.num / θ.den * Complex.I : ℂ) ∈ f.aroots ℂ := by
  have hden : ((θ.den : ℤ) ^ 2) ≠ 0 := pow_ne_zero 2 (Int.natCast_ne_zero.2 θ.den_ne_zero)
  have hnum : θ.num ^ 2 ≠ 0 := pow_ne_zero 2 (Rat.num_ne_zero.2 hθ)
  have hdegree : (C ((θ.den : ℤ) ^ 2) * X ^ 2 + C (θ.num ^ 2)).natDegree = 2 := by
    compute_degree!
  have hne : (C ((θ.den : ℤ) ^ 2) * X ^ 2 + C (θ.num ^ 2)) ≠ 0 := by
    rintro h
    rw [h, Polynomial.natDegree_zero] at hdegree
    cases hdegree
  refine ⟨_, hdegree, by simpa using Rat.num_ne_zero.2 hθ, Polynomial.mem_aroots.2 ⟨hne, ?_⟩⟩
  have hden : (θ.den : ℂ) ≠ 0 := Nat.cast_ne_zero.2 θ.den_ne_zero
  simp only [map_add, map_mul, map_pow, Polynomial.aeval_X, mul_pow, Complex.I_sq, div_pow]
  simp
  field_simp
  ring

/-- **Rational arguments.**  The coordinates of the point of the unit circle with a rational argument
other than zero are not both rational. -/
theorem coe_exp_ne {θ : ℚ} (hθ : θ ≠ 0) (q r : ℚ) :
    (Circle.exp θ : ℂ) ≠ q + r * Complex.I := by
  intro heq
  have hnorm : ‖(q + r * Complex.I : ℂ)‖ = 1 := by rw [← heq, Circle.norm_coe]
  have hz : ((θ : ℝ) : ℂ) * Complex.I = θ.num / θ.den * Complex.I := by
    rw [Complex.ofReal_ratCast, Rat.cast_def θ]
  rw [Circle.coe_exp, hz] at heq
  obtain ⟨w, hw⟩ := exists_toComplex_eq q r
  obtain ⟨f, hdegree, heval, hroot⟩ := exists_mem_aroots hθ
  obtain ⟨c, hc⟩ := LindemannWeierstrass.exp_polynomial_approx f heval
  have hden : (θ.den : ℝ) ≠ 0 := Nat.cast_ne_zero.2 θ.den_ne_zero
  obtain ⟨p, hp, hlarge, hsmall⟩ := exists_prime_pow_lt
    (max (max (f.eval 0).natAbs θ.den) (max w.re.natAbs w.im.natAbs)) (q.den * r.den) hden c
  obtain ⟨n, hn, g, hg, happrox⟩ := hc p (by omega) hp
  have happrox := happrox hroot
  rw [heq] at happrox
  rw [hdegree, mul_comm] at hg
  obtain ⟨v, hv⟩ := exists_pow_mul_aeval g θ.num θ.den_ne_zero hg
  -- the difference, cleared of its denominators, is less than one
  have hvalue : toComplex (((n * θ.den ^ (2 * p - 1) : ℤ) : GaussianInt) * w -
      ((p : ℤ) : GaussianInt) * (((q.den * r.den : ℤ) : GaussianInt) * v)) =
      (q.den * r.den * θ.den ^ (2 * p - 1) : ℝ) * (n • (q + r * Complex.I : ℂ) -
        p • aeval (θ.num / θ.den * Complex.I : ℂ) g) := by
    rw [map_sub, map_mul, map_mul, map_mul, map_intCast, map_intCast, map_intCast, hw, hv,
      zsmul_eq_mul, nsmul_eq_mul]
    push_cast
    ring
  have hzero : ((n * θ.den ^ (2 * p - 1) : ℤ) : GaussianInt) * w =
      ((p : ℤ) : GaussianInt) * (((q.den * r.den : ℤ) : GaussianInt) * v) := by
    refine sub_eq_zero.1 (eq_zero_of_norm_lt_one ?_)
    have hpos : (0 : ℝ) ≤ q.den * r.den * θ.den ^ (2 * p - 1) := by positivity
    rw [hvalue, norm_mul, Complex.norm_of_nonneg hpos]
    exact (mul_le_mul_of_nonneg_left happrox hpos).trans_lt hsmall
  have hw0 := eq_zero_of_prime_mul_eq hp hn θ.den_ne_zero (by omega) (by omega) (by omega) hzero
  rw [hw0, map_zero] at hw
  have hfactor : (((q.den * r.den : ℝ)) : ℂ) ≠ 0 := by
    exact_mod_cast mul_ne_zero q.den_ne_zero r.den_ne_zero
  rw [(mul_eq_zero.1 hw.symm).resolve_left hfactor, norm_zero] at hnorm
  exact zero_ne_one hnorm

/-! ### Polar coordinates -/

variable {m t : ℚ}

/-- A number with rational parts has no rational modulus and argument, unless the argument is zero. -/
theorem eq_zero_of_mul_exp_eq {q r : ℚ} (hz : (q + r * Complex.I : ℂ) ≠ 0)
    (h : (m * Circle.exp t : ℂ) = q + r * Complex.I) : t = 0 := by
  by_contra ht
  have hm : (m : ℂ) ≠ 0 := by
    rintro hm
    rw [hm, zero_mul] at h
    exact hz h.symm
  refine coe_exp_ne ht (q / m) (r / m) (mul_left_cancel₀ hm (h.trans ?_))
  push_cast
  field_simp

/-- A fraction of `π` is not a rational argument of the same number, unless that is zero. -/
theorem eq_zero_of_mul_exp_eq_norm {z : ℂ} (hz : z ≠ 0) {a : ℚ}
    (h : (m * Circle.exp t : ℂ) = ‖z‖ * Circle.exp (a * Real.pi)) : t = 0 := by
  have hnorm : (‖z‖ : ℂ) ^ 2 ≠ 0 := pow_ne_zero 2 (by simpa using hz)
  -- the signs of the moduli do not matter for the squares
  have hmodulus : (m : ℂ) ^ 2 = ‖z‖ ^ 2 := by
    have habs := congrArg norm h
    rw [norm_mul, norm_mul, Circle.norm_coe, Circle.norm_coe, mul_one, mul_one, Complex.norm_real,
      norm_norm, ← Complex.ofReal_ratCast, Complex.norm_real, Real.norm_eq_abs] at habs
    rw [← habs, ← Complex.ofReal_ratCast, ← Complex.ofReal_pow, ← Complex.ofReal_pow, sq_abs]
  have hsquares : (‖z‖ : ℂ) ^ 2 * (Circle.exp t : ℂ) ^ 2 =
      ‖z‖ ^ 2 * (Circle.exp (a * Real.pi) : ℂ) ^ 2 :=
    calc (‖z‖ : ℂ) ^ 2 * (Circle.exp t : ℂ) ^ 2 = (m * Circle.exp t) ^ 2 := by
          rw [mul_pow, hmodulus]
      _ = ‖z‖ ^ 2 * (Circle.exp (a * Real.pi) : ℂ) ^ 2 := by rw [h, mul_pow]
  have hsquare : Circle.exp (t + t) = Circle.exp (a * Real.pi + a * Real.pi) := by
    refine Circle.coe_injective ?_
    rw [Circle.exp_add, Circle.exp_add, Circle.coe_mul, Circle.coe_mul, ← sq, ← sq]
    exact mul_left_cancel₀ hnorm hsquares
  obtain ⟨k, hk⟩ := Circle.exp_eq_exp.1 hsquare
  have hmultiple : (t : ℝ) = (a + k : ℚ) * Real.pi := by
    push_cast
    linarith
  by_contra ht
  have hne : ((a + k : ℚ) : ℝ) ≠ 0 := by
    rintro hzero
    rw [hzero, zero_mul] at hmultiple
    exact ht (by exact_mod_cast hmultiple)
  refine irrational_pi.ne_rat (t / (a + k)) ?_
  rw [Rat.cast_div, hmultiple, mul_div_cancel_left₀ _ hne]

end Resolvent.UnitCircle

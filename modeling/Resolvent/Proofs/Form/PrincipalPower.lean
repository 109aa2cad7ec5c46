import Mathlib.Analysis.SpecialFunctions.Complex.Log
import Resolvent.Proofs.Form.ComplexParts
import Resolvent.Proofs.Form.Power

/-!
# Powers and roots on their branches

Evaluation takes each power and root of complex numbers by itself and picks a branch from the format,
the signs and the exponent (`evaluatedRoot`, `evaluatedPower`).  A root is the principal one, unless
it is that of a negative number under the real format (`evaluatedRoot_eq_cpow_iff`), and so is a
power (`evaluatedPower_eq_cpow`).  Rational powers of real numbers are computed case by case
(`evaluatedPower_ratCast`).

The root of a whole power is the power with a fraction as exponent if the angle of the power is as
many whole turns away as the index divides (`zpow_cpow_inv_eq_iff`), and the square root of the
opposite times the imaginary unit is the principal root for half of all numbers
(`cpow_neg_two_inv_mul_unit_iff`).
-/

namespace Resolvent

open scoped Real ComplexOrder

/-! ### Roots and powers as evaluation takes them -/

/-- The root of a complex number that evaluation takes, or none where it has no value. -/
noncomputable def evaluatedRoot (format : ComplexFormat) (z : ℂ) (n : Nat) : Option ℂ :=
  if z.im = 0 then exactRoot format z.re n else some (z ^ (n : ℂ)⁻¹)

/-- A whole number that evaluation raises to by repeated multiplication. -/
def IsSmallWhole (w : ℂ) : Prop := w.im = 0 ∧ (⌊w.re⌋ : ℝ) = w.re ∧ |w.re| ≤ 2147483647

/-- The power of a negative number with an exponent that is no whole number, under the real format:
an exponent `±1/n` is a root, and others have no value. -/
noncomputable def evaluatedRealPower (a y : ℝ) : Option ℂ :=
  if (⌊y⁻¹⌋ : ℝ) = y⁻¹ ∧ |y⁻¹| ≤ 4294967295 then
    (exactRoot .real a ⌊y⁻¹⌋.natAbs).map fun r => if y⁻¹ < 0 then r⁻¹ else r
  else none

open scoped Classical in
/-- The power of complex numbers that evaluation takes, or none where it has no value. -/
noncomputable def evaluatedPower (format : ComplexFormat) (z w : ℂ) : Option ℂ :=
  if IsSmallWhole w then if z = 0 ∧ w.re < 0 then none else some (z ^ ⌊w.re⌋)
  else if z.im = 0 ∧ w.im = 0 then
    if 0 ≤ z.re then if z.re = 0 ∧ w.re < 0 then none else some ((z.re ^ w.re : ℝ) : ℂ)
    else if format = .real then evaluatedRealPower z.re w.re
    else some (z ^ w)
  else if z = 0 then none else some (z ^ w)

open scoped Classical in
/-- The root that evaluation takes with another number as its index: small whole indices are those
of roots, and others are inverted to exponents. -/
noncomputable def evaluatedRootBy (format : ComplexFormat) (z w : ℂ) : Option ℂ :=
  if w.im = 0 ∧ (⌊w.re⌋ : ℝ) = w.re ∧ 1 ≤ w.re ∧ w.re ≤ 1000000 then
    evaluatedRoot format z ⌊w.re⌋.toNat
  else if w = 0 then none else evaluatedPower format z w⁻¹

section Branches

variable {format : ComplexFormat} {z w : ℂ} {a : ℝ} {q : Rat} {n : Nat}

theorem evaluatedRoot_ofReal (format : ComplexFormat) (a : ℝ) (n : Nat) :
    evaluatedRoot format a n = exactRoot format a n := if_pos (Complex.ofReal_im a)

theorem eq_ofReal_of_im (h : z.im = 0) : z = (z.re : ℂ) := Complex.ext rfl h

theorem lt_zero_iff : z < 0 ↔ z.re < 0 ∧ z.im = 0 := by
  simp [Complex.lt_def]

theorem ofReal_lt_zero : (a : ℂ) < 0 ↔ a < 0 := by
  rw [lt_zero_iff, Complex.ofReal_re, Complex.ofReal_im, and_iff_left rfl]

theorem ratCast_nonneg : (0 : ℂ) ≤ q ↔ 0 ≤ q := by
  rw [← Complex.ofReal_ratCast, Complex.zero_le_real, Rat.cast_nonneg]

theorem ne_zero_or_nonneg (h : q < 0 → z ≠ 0) : z ≠ 0 ∨ (0 : ℂ) ≤ q := by
  rcases lt_or_ge q 0 with hlt | hge
  · exact .inl (h hlt)
  · exact .inr (ratCast_nonneg.2 hge)

/-- Evaluation takes the principal root unless the format is real and the number is negative. -/
theorem evaluatedRoot_eq_cpow (h : format = .real → ¬ z < 0) (n : Nat) :
    evaluatedRoot format z n = some (z ^ (n : ℂ)⁻¹) := by
  unfold evaluatedRoot
  split
  · next hreal =>
    rw [exactRoot, if_neg fun hneg => h hneg.2 (lt_zero_iff.2 ⟨hneg.1, hreal⟩),
      ← eq_ofReal_of_im hreal]
  · rfl

theorem evaluatedRoot_one (format : ComplexFormat) (z : ℂ) : evaluatedRoot format z 1 = some z := by
  by_cases hneg : format = .real → ¬ z < 0
  · rw [evaluatedRoot_eq_cpow hneg, Nat.cast_one, inv_one, Complex.cpow_one]
  · obtain ⟨hreal, hneg⟩ := Classical.not_imp.1 hneg
    obtain ⟨hre, him⟩ := lt_zero_iff.1 (not_not.1 hneg)
    rw [evaluatedRoot, if_pos him, exactRoot, if_pos ⟨hre, hreal⟩, if_pos (by decide), Nat.cast_one,
      inv_one, Real.rpow_one, neg_neg, ← eq_ofReal_of_im him]

/-- The real root of a negative number is not the principal one. -/
theorem evaluatedRoot_eq_cpow_iff (hn : 2 ≤ n) :
    evaluatedRoot format z n = some (z ^ (n : ℂ)⁻¹) ↔ (format = .real → ¬ z < 0) := by
  refine ⟨fun h hreal hneg => ?_, fun h => evaluatedRoot_eq_cpow h n⟩
  obtain ⟨hre, him⟩ := lt_zero_iff.1 hneg
  rw [evaluatedRoot, if_pos him, exactRoot, if_pos ⟨hre, hreal⟩] at h
  split at h
  · -- the principal root of a negative number is not real
    refine not_le.2 hre ((im_cpow_inv_eq_zero_iff him hn).1 ?_)
    rw [← Option.some.inj h, Complex.ofReal_im]
  · cases h

theorem cpow_floor (h : IsSmallWhole w) : z ^ ⌊w.re⌋ = z ^ w := by
  have hw : w = ((⌊w.re⌋ : ℤ) : ℂ) := by
    refine Complex.ext ?_ ?_
    · rw [Complex.intCast_re, h.2.1]
    · rw [Complex.intCast_im, h.1]
  rw [← Complex.cpow_intCast, ← hw]

/-- Evaluation takes the principal power unless the format is real, the base is negative and the
exponent is no small whole number. -/
theorem evaluatedPower_eq_cpow (hz : z ≠ 0 ∨ 0 ≤ w)
    (h : IsSmallWhole w ∨ (format = .real → ¬ z < 0)) :
    evaluatedPower format z w = some (z ^ w) := by
  have hne : z = 0 → 0 ≤ w.re ∧ w.im = 0 := fun hzero => by
    have hw := Complex.le_def.1 (hz.resolve_left fun hne => hne hzero)
    exact ⟨hw.1, hw.2.symm⟩
  unfold evaluatedPower
  split
  · next hsmall =>
    rw [if_neg fun hneg => not_lt.2 (hne hneg.1).1 hneg.2, cpow_floor hsmall]
  · next hsmall =>
    have h := h.resolve_left hsmall
    split
    · next hreal =>
      have hz := eq_ofReal_of_im hreal.1
      split
      · next hnonneg =>
        rw [if_neg fun hneg => not_lt.2 (hne (by rw [hz, hneg.1, Complex.ofReal_zero])).1 hneg.2,
          Complex.ofReal_cpow hnonneg, ← hz, ← eq_ofReal_of_im hreal.2]
      · next hneg =>
        rw [if_neg fun hformat => h hformat (lt_zero_iff.2 ⟨not_le.1 hneg, hreal.1⟩)]
    · next hreal =>
      rw [if_neg]
      rintro rfl
      exact hreal ⟨rfl, (hne rfl).2⟩

theorem floor_ratCast_eq_iff : (⌊(q : ℝ)⌋ : ℝ) = q ↔ q.den = 1 := by
  rw [Rat.floor_cast]
  constructor
  · exact fun h => den_eq_one_of_cast_eq h.symm
  · intro h
    rw [← Rat.coe_int_num_of_den_eq_one h, Int.floor_intCast, Rat.cast_intCast]

theorem isSmallWhole_ratCast_iff : IsSmallWhole q ↔ q.den = 1 ∧ q.num.natAbs ≤ 2147483647 := by
  rw [IsSmallWhole, ← Complex.ofReal_ratCast, Complex.ofReal_im, Complex.ofReal_re,
    floor_ratCast_eq_iff]
  simp only [true_and]
  refine and_congr_right fun hden => ?_
  rw [← Rat.coe_int_num_of_den_eq_one hden, Rat.num_intCast, Rat.cast_intCast, ← Int.cast_abs,
    Int.abs_eq_natAbs]
  norm_cast

theorem inv_ratCast_of_unit (h : q.num.natAbs = 1) : (q : ℝ)⁻¹ = ((q.num * q.den : ℤ) : ℝ) := by
  have hsign : (q.num : ℝ)⁻¹ = q.num := by
    rcases Int.natAbs_eq q.num with hnum | hnum <;> rw [h] at hnum <;> rw [hnum] <;> norm_num
  rw [Rat.cast_def, inv_div, div_eq_mul_inv, hsign]
  push_cast
  ring

theorem evaluatedRealPower_ratCast (a : ℝ) (hq : q ≠ 0) :
    evaluatedRealPower a q =
      if q.num.natAbs = 1 ∧ q.den ≤ 4294967295 then
        (exactRoot .real a q.den).map fun r => if q < 0 then r⁻¹ else r
      else none := by
  unfold evaluatedRealPower
  by_cases hunit : q.num.natAbs = 1
  · have habs : |((q.num * q.den : ℤ) : ℝ)| = (q.den : ℝ) := by
      rw [← Int.cast_abs, Int.abs_eq_natAbs, Int.natAbs_mul, hunit, one_mul]
      norm_cast
    have hindex : (q.num * q.den : ℤ).natAbs = q.den := by
      rw [Int.natAbs_mul, hunit, one_mul, Int.natAbs_natCast]
    have hbound : (q.den : ℝ) ≤ 4294967295 ↔ q.den ≤ 4294967295 := by norm_cast
    have hsign : ((q.num * q.den : ℤ) : ℝ) < 0 ↔ q < 0 := by
      rw [← inv_ratCast_of_unit hunit, inv_lt_zero, Rat.cast_lt_zero]
    simp only [inv_ratCast_of_unit hunit, Int.floor_intCast, habs, hbound, hindex, hsign, hunit,
      true_and]
  · rw [if_neg, if_neg fun h => hunit h.1]
    rintro ⟨hfloor, -⟩
    rw [← Rat.cast_inv, floor_ratCast_eq_iff, Rat.den_inv_of_ne_zero hq] at hfloor
    exact hunit hfloor

/-- For real bases and rational exponents these are the powers of `exactPower`. -/
theorem evaluatedPower_ratCast (h : a ≠ 0 ∨ 0 ≤ q) :
    evaluatedPower format a q = exactPower format a q := by
  by_cases hneg : format = .real ∧ a < 0 ∧ ¬ IsSmallWhole q
  · obtain ⟨rfl, hneg, hsmall⟩ := hneg
    have hwhole := isSmallWhole_ratCast_iff.not.1 hsmall
    have hre : (q : ℂ).re = q := by rw [← Complex.ofReal_ratCast, Complex.ofReal_re]
    have him : (q : ℂ).im = 0 := by rw [← Complex.ofReal_ratCast, Complex.ofReal_im]
    rw [evaluatedPower, if_neg hsmall, if_pos ⟨Complex.ofReal_im a, him⟩, Complex.ofReal_re,
      if_neg (not_le.2 hneg), if_pos rfl, hre, exactPower, if_neg hwhole, if_pos ⟨hneg, rfl⟩]
    have hq : q ≠ 0 := by
      rintro rfl
      exact hwhole ⟨rfl, by decide⟩
    exact evaluatedRealPower_ratCast a hq
  · have hbranch : IsSmallWhole q ∨ (format = .real → ¬ (a : ℂ) < 0) := by
      by_contra hnot
      obtain ⟨hsmall, hreal⟩ := not_or.1 hnot
      obtain ⟨hreal, ha⟩ := Classical.not_imp.1 hreal
      exact hneg ⟨hreal, ofReal_lt_zero.1 (not_not.1 ha), hsmall⟩
    have hbase : (a : ℂ) ≠ 0 ∨ (0 : ℂ) ≤ q :=
      h.imp Complex.ofReal_ne_zero.2 ratCast_nonneg.2
    rw [evaluatedPower_eq_cpow hbase hbranch, exactPower_eq_cpow]
    rw [isSmallWhole_ratCast_iff] at hbranch
    rcases hbranch with hsmall | hreal
    · exact .inr (.inr hsmall)
    · by_cases hformat : format = .real
      · exact .inl (not_lt.1 fun ha => hreal hformat (ofReal_lt_zero.2 ha))
      · exact .inr (.inl hformat)

/-- The power with the inverse of an index is the root. -/
theorem evaluatedPower_inv (hn : 1 ≤ n) (hhigh : n ≤ 4294967295) :
    evaluatedPower format z (n : ℂ)⁻¹ = evaluatedRoot format z n := by
  by_cases hneg : format = .real → ¬ z < 0
  · have hexponent : (0 : ℂ) ≤ (n : ℂ)⁻¹ := by
      have h := ratCast_nonneg (q := (n : Rat)⁻¹)
      push_cast at h
      exact h.2 (by positivity)
    rw [evaluatedPower_eq_cpow (.inr hexponent) (.inr hneg), evaluatedRoot_eq_cpow hneg]
  · obtain ⟨hreal, hneg⟩ := Classical.not_imp.1 hneg
    obtain ⟨hre, him⟩ := lt_zero_iff.1 (not_not.1 hneg)
    have hq : (n : ℂ)⁻¹ = (((n : Rat)⁻¹ : Rat) : ℂ) := by push_cast; rfl
    have hden : (n : Rat)⁻¹.den = n := by simp [(show n ≠ 0 by omega)]
    have hpos : 0 < n := hn
    have hnum : (n : Rat)⁻¹.num = 1 := by simpa using hpos
    rw [hq, hreal, eq_ofReal_of_im him, evaluatedPower_ratCast (.inl hre.ne), evaluatedRoot_ofReal,
      exactPower, hden, hnum]
    split
    · next hone =>
      rw [hone.1, exactRoot, if_pos ⟨hre, rfl⟩]
      simp
    · have hnonneg : ¬ (n : Rat)⁻¹ < 0 := not_lt.2 (by positivity)
      rw [if_pos ⟨hre, rfl⟩, if_pos ⟨rfl, hhigh⟩]
      simp only [if_neg hnonneg, Option.map_id']

theorem evaluatedRootBy_natCast (hn : 1 ≤ n) (hhigh : n ≤ 1000000) :
    evaluatedRootBy format z n = evaluatedRoot format z n := by
  have hlow : (1 : ℝ) ≤ n := by exact_mod_cast hn
  have hhigh : (n : ℝ) ≤ 1000000 := by exact_mod_cast hhigh
  rw [evaluatedRootBy, Complex.natCast_im, Complex.natCast_re, Int.floor_natCast,
    if_pos ⟨rfl, Int.cast_natCast n, hlow, hhigh⟩, Int.toNat_natCast]

/-- All indices other than zero may be inverted. -/
theorem evaluatedRootBy_eq (hw : w ≠ 0) :
    evaluatedRootBy format z w = evaluatedPower format z w⁻¹ := by
  unfold evaluatedRootBy
  split
  · next hindex =>
    obtain ⟨him, hwhole, hlow, hhigh⟩ := hindex
    obtain ⟨n, hn⟩ := Int.eq_ofNat_of_zero_le (Int.floor_nonneg.2 (zero_le_one.trans hlow))
    rw [hn, Int.cast_natCast] at hwhole
    have hw : w = n := by rw [eq_ofReal_of_im him, ← hwhole, Complex.ofReal_natCast]
    rw [← hwhole] at hlow hhigh
    have hhigh : n ≤ 1000000 := by exact_mod_cast hhigh
    rw [hn, hw, evaluatedPower_inv (by exact_mod_cast hlow) (by omega), Int.toNat_natCast]
  · rfl

/-- The root of a power is the power with a fraction as its exponent exactly if the angle of the
power differs from the multiple of the angle of the base by as many turns as the index divides. -/
theorem zpow_cpow_inv_eq_iff (hz : z ≠ 0) (k : ℤ) (hn : 1 ≤ n) :
    (z ^ k) ^ (n : ℂ)⁻¹ = z ^ ((k : ℂ) / n) ↔
      ∃ m : ℤ, k * z.arg - 2 * π * (n * m) ∈ Set.Ioc (-π) π := by
  have hpow : z ^ k ≠ 0 := zpow_ne_zero k hz
  have hn0 : (n : ℂ) ≠ 0 := Nat.cast_ne_zero.2 (by omega)
  have hlog : ∀ m : ℤ, Complex.log (z ^ k) * (n : ℂ)⁻¹ =
      Complex.log z * (k / n) + m * (2 * π * Complex.I) ↔
        Complex.log (z ^ k) = k * Complex.log z + n * m * (2 * π * Complex.I) := by
    intro m
    field_simp
  have him : ∀ m : ℤ, (k * Complex.log z + n * m * (2 * π * Complex.I)).im =
      k * z.arg - 2 * π * (n * (-m : ℤ)) := by
    intro m
    simp [Complex.log_im]
    ring
  rw [Complex.cpow_def_of_ne_zero hpow, Complex.cpow_def_of_ne_zero hz,
    Complex.exp_eq_exp_iff_exists_int]
  simp only [hlog]
  constructor
  · rintro ⟨m, hm⟩
    refine ⟨-m, ?_⟩
    rw [← him, ← hm, Complex.log_im]
    exact ⟨Complex.neg_pi_lt_arg _, Complex.arg_le_pi _⟩
  · rintro ⟨m, hm⟩
    refine ⟨-m, ?_⟩
    have him := him (-m)
    rw [neg_neg] at him
    rw [← him] at hm
    rw [← Complex.log_exp hm.1 hm.2]
    congr 1
    have hturns : (n : ℂ) * ((-m : ℤ) : ℂ) * (2 * π * Complex.I) =
        ((n * -m : ℤ) : ℂ) * (2 * π * Complex.I) := by
      push_cast
      ring
    rw [hturns, Complex.exp_add, Complex.exp_int_mul, Complex.exp_log hz,
      Complex.exp_int_mul_two_pi_mul_I, mul_one]

/-- The square root of a number is the multiple of that of its opposite by the imaginary unit
exactly if the number is above the real line or not positive. -/
theorem cpow_neg_two_inv_mul_unit_iff (z : ℂ) :
    (-z) ^ ((2 : ℕ) : ℂ)⁻¹ * Complex.I = z ^ ((2 : ℕ) : ℂ)⁻¹ ↔ 0 < z.im ∨ z ≤ 0 := by
  rcases eq_or_ne z 0 with rfl | hz
  · simp
  have hhalf : ((π : ℂ) * Complex.I * ((2 : ℕ) : ℂ)⁻¹).exp = Complex.I := by
    rw [Nat.cast_ofNat, ← div_eq_mul_inv, mul_div_right_comm, Complex.exp_pi_div_two_mul_I]
  -- the opposite is half a turn away, in one direction or the other
  have hturn : ∀ t : ℝ, (-z).arg = z.arg + t → (-z) ^ ((2 : ℕ) : ℂ)⁻¹ =
      z ^ ((2 : ℕ) : ℂ)⁻¹ * (t * Complex.I * ((2 : ℕ) : ℂ)⁻¹).exp := by
    intro t ht
    rw [Complex.cpow_def_of_ne_zero (neg_ne_zero.2 hz), Complex.cpow_def_of_ne_zero hz,
      ← Complex.exp_add, Complex.log, norm_neg, ht, Complex.log]
    congr 1
    push_cast
    ring
  have hne : z ^ ((2 : ℕ) : ℂ)⁻¹ ≠ 0 := by simp [Complex.cpow_eq_zero_iff, hz]
  have hnonpos : z ≤ 0 ↔ z.im = 0 ∧ z.re < 0 := by
    rw [hz.le_iff_lt, lt_zero_iff, and_comm]
  rw [hnonpos]
  by_cases habove : 0 < z.im ∨ z.im = 0 ∧ z.re < 0
  · refine iff_of_true ?_ habove
    have harg := hturn (-π) (Complex.arg_neg_eq_arg_sub_pi_iff.2 habove)
    rw [harg, Complex.ofReal_neg, neg_mul, neg_mul, Complex.exp_neg, hhalf, mul_assoc,
      inv_mul_cancel₀ Complex.I_ne_zero, mul_one]
  · refine iff_of_false (fun h => hne ?_) habove
    have hbelow : z.im < 0 ∨ z.im = 0 ∧ 0 < z.re := by
      rcases lt_trichotomy z.im 0 with him | him | him
      · exact .inl him
      · refine .inr ⟨him, lt_of_le_of_ne (not_lt.1 fun hre => habove (.inr ⟨him, hre⟩)) ?_⟩
        exact fun hre => hz (Complex.ext hre.symm him)
      · exact absurd (.inl him) habove
    rw [hturn π (Complex.arg_neg_eq_arg_add_pi_iff.2 hbelow), hhalf, mul_assoc, Complex.I_mul_I,
      mul_neg_one] at h
    exact neg_eq_self.1 h

end Branches

end Resolvent

import Resolvent.Form.OfExpression
import Resolvent.Proofs.Form.Constant
import Resolvent.Proofs.Form.Valuation
import Resolvent.Proofs.Form.Radical

/-!
# Powers of rational numbers, read twice

Roots and powers are taken in two ways: as canonical forms, whose atoms have principal values, and
by evaluation, which picks a branch from the format, the sign of the base and the exponent.
`exactRoot` and `exactPower` are the second reading in exact arithmetic.

Roots of rational numbers agree in every format (`Form.exactRoot_eq_of_root`).  Powers do not: a
form is the root of a power of the base, evaluation takes a principal power, or a real root where
the exponent is the reciprocal of a whole number.  `Form.exactPower_eq_iff` says where the two agree.
-/

namespace Resolvent

open scoped Real

/-! ### Powers as evaluation takes them -/

/-- The root of a real number in a format, or none where evaluation has no value. -/
noncomputable def exactRoot (format : ComplexFormat) (a : ℝ) (n : Nat) : Option ℂ :=
  if a < 0 ∧ format = .real then
    if n % 2 = 1 then some ((-(-a) ^ (n : ℝ)⁻¹ : ℝ) : ℂ) else none
  else some ((a : ℂ) ^ (n : ℂ)⁻¹)

/-- The power of a real number with a rational exponent in a format, or none where evaluation has no
value: under the real format a negative number has whole powers and roots only. -/
noncomputable def exactPower (format : ComplexFormat) (a : ℝ) (q : Rat) : Option ℂ :=
  if q.den = 1 ∧ q.num.natAbs ≤ 2147483647 then some ((a : ℂ) ^ q.num)
  else if a < 0 ∧ format = .real then
    if q.num.natAbs = 1 ∧ q.den ≤ 4294967295 then
      (exactRoot .real a q.den).map fun r => if q < 0 then r⁻¹ else r
    else none
  else some ((a : ℂ) ^ (q : ℂ))

section Branches

variable {format : ComplexFormat} {a : ℝ} {q : Rat}

/-- The principal power of a negative number is turned by as many half turns as the exponent
says. -/
theorem cpow_of_neg (ha : a < 0) (y : ℝ) :
    (a : ℂ) ^ (y : ℂ) = ((-a) ^ y : ℝ) * (π * Complex.I * y : ℂ).exp := by
  rw [Complex.ofReal_cpow_of_nonpos ha.le, Complex.ofReal_cpow (neg_pos.2 ha).le,
    Complex.ofReal_neg]

theorem ofReal_rpow_ne_zero (ha : a < 0) (y : ℝ) : (((-a) ^ y : ℝ) : ℂ) ≠ 0 :=
  Complex.ofReal_ne_zero.2 (Real.rpow_pos_of_pos (neg_pos.2 ha) y).ne'

theorem exp_half_turns_eq_iff {y z : ℝ} :
    (π * Complex.I * y : ℂ).exp = (π * Complex.I * z : ℂ).exp ↔ ∃ n : ℤ, y = z + 2 * n := by
  rw [Complex.exp_eq_exp_iff_exists_int]
  have hne : (π * Complex.I : ℂ) ≠ 0 :=
    mul_ne_zero (Complex.ofReal_ne_zero.2 Real.pi_ne_zero) Complex.I_ne_zero
  refine exists_congr fun n => ⟨fun h => ?_, fun h => ?_⟩
  · have hmul : (π * Complex.I : ℂ) * y = π * Complex.I * (z + 2 * n) := by rw [h]; ring
    exact_mod_cast mul_left_cancel₀ hne hmul
  · rw [h]
    push_cast
    ring

theorem den_eq_one_of_cast_eq {m : ℤ} (h : (q : ℝ) = m) : q.den = 1 := by
  have hq : q = m := by exact_mod_cast h
  rw [hq, Rat.den_intCast]

/-- A fraction of a half turn is not a whole number of half turns. -/
theorem exp_half_turns_ne (hden : q.den ≠ 1) (m : ℤ) :
    (π * Complex.I * (q : ℝ) : ℂ).exp ≠ (π * Complex.I * (m : ℝ) : ℂ).exp := by
  intro h
  obtain ⟨n, hn⟩ := exp_half_turns_eq_iff.1 h
  exact hden (den_eq_one_of_cast_eq (m := m + 2 * n) (by rw [hn]; push_cast; ring))

/-- A fraction is a number of whole turns beyond the unit of its denominator. -/
theorem exists_cast_eq_inv_den_add_iff (q : Rat) :
    (∃ n : ℤ, (q : ℝ) = (q.den : ℝ)⁻¹ + 2 * n) ↔ q.num % (2 * q.den) = 1 := by
  have hden : (q.den : ℝ) ≠ 0 := Nat.cast_ne_zero.2 q.den_nz
  have hpos := q.den_pos
  have hnum : ∀ n : ℤ, (q : ℝ) = (q.den : ℝ)⁻¹ + 2 * n ↔ q.num = 1 + 2 * q.den * n := by
    intro n
    rw [Rat.cast_def, div_eq_iff hden, add_mul, inv_mul_cancel₀ hden]
    constructor
    · intro h
      have hcast : (q.num : ℝ) = ((1 + 2 * q.den * n : ℤ) : ℝ) := by
        rw [h]
        push_cast
        ring
      exact_mod_cast hcast
    · intro h
      rw [h]
      push_cast
      ring
  simp only [hnum]
  constructor
  · rintro ⟨n, hn⟩
    rw [hn, Int.add_mul_emod_self_left]
    exact Int.emod_eq_of_lt (by omega) (by omega)
  · intro h
    exact ⟨q.num / (2 * q.den), by have := Int.emod_add_mul_ediv q.num (2 * q.den); omega⟩

theorem rpow_zpow_inv_den {b : ℝ} (hb : 0 < b) (q : Rat) :
    (b ^ q.num) ^ (q.den : ℝ)⁻¹ = b ^ (q : ℝ) := by
  rw [← Real.rpow_intCast, ← Real.rpow_mul hb.le, ← div_eq_mul_inv, Rat.cast_def]

/-- The root of a power of a negative number: the power that is positive, negative or turned by the
root's share of a half turn. -/
theorem exactRoot_zpow (ha : a < 0) (format : ComplexFormat) (q : Rat) :
    exactRoot format (a ^ q.num) q.den =
      if Even q.num then some (((-a) ^ (q : ℝ) : ℝ) : ℂ)
      else if format = .real then
        if q.den % 2 = 1 then some ((-(-a) ^ (q : ℝ) : ℝ) : ℂ) else none
      else some (((-a) ^ (q : ℝ) : ℝ) * (π * Complex.I * ((q.den : ℝ)⁻¹ : ℝ) : ℂ).exp) := by
  have hpos : 0 < -a := neg_pos.2 ha
  rcases Int.even_or_odd q.num with heven | hodd
  · have hpow : a ^ q.num = (-a) ^ q.num := (heven.neg_zpow a).symm
    have hnonneg : ¬ (-a) ^ q.num < 0 := not_lt.2 (zpow_pos hpos _).le
    rw [exactRoot, hpow, if_neg (by simp [hnonneg]), if_pos heven, ← rpow_zpow_inv_den hpos,
      Complex.ofReal_cpow (zpow_pos hpos _).le]
    push_cast
    rfl
  · have hpow : a ^ q.num = -(-a) ^ q.num := by rw [hodd.neg_zpow, neg_neg]
    have hneg : a ^ q.num < 0 := hpow ▸ neg_neg_of_pos (zpow_pos hpos _)
    rw [exactRoot, if_neg (Int.not_even_iff_odd.2 hodd)]
    by_cases hreal : format = .real
    · rw [if_pos ⟨hneg, hreal⟩, if_pos hreal, hpow, neg_neg, rpow_zpow_inv_den hpos]
    · rw [if_neg (by simp [hreal]), if_neg hreal]
      have hturn := cpow_of_neg hneg (q.den : ℝ)⁻¹
      rw [hpow, neg_neg, rpow_zpow_inv_den hpos, ← hpow] at hturn
      rw [← hturn]
      push_cast
      rfl

/-- A power of a negative number with an exponent that is not whole. -/
theorem exactPower_of_neg (ha : a < 0) (hq : q.den ≠ 1) (format : ComplexFormat) :
    exactPower format a q =
      if format = .real then
        if q.num.natAbs = 1 ∧ q.den ≤ 4294967295 ∧ q.den % 2 = 1 then
          some ((-(-a) ^ (q : ℝ) : ℝ) : ℂ)
        else none
      else some (((-a) ^ (q : ℝ) : ℝ) * (π * Complex.I * (q : ℝ) : ℂ).exp) := by
  have hpos : 0 < -a := neg_pos.2 ha
  rw [exactPower, if_neg fun h => hq h.1]
  by_cases hreal : format = .real
  · have hroot : exactRoot .real a q.den =
        if q.den % 2 = 1 then some ((-(-a) ^ (q.den : ℝ)⁻¹ : ℝ) : ℂ) else none := if_pos ⟨ha, rfl⟩
    rw [if_pos ⟨ha, hreal⟩, if_pos hreal, hroot]
    by_cases hunit : q.num.natAbs = 1 ∧ q.den ≤ 4294967295
    · by_cases hodd : q.den % 2 = 1
      · rw [if_pos hunit, if_pos hodd, if_pos ⟨hunit.1, hunit.2, hodd⟩, Option.map_some]
        congr 1
        rcases Int.natAbs_eq q.num with hnum | hnum <;> rw [hunit.1] at hnum
        · have hcast : (q : ℝ) = (q.den : ℝ)⁻¹ := by rw [Rat.cast_def, hnum]; simp
          rw [if_neg (not_lt.2 (Rat.num_nonneg.1 (by omega))), hcast]
        · have hcast : (q : ℝ) = -(q.den : ℝ)⁻¹ := by rw [Rat.cast_def, hnum]; simp [neg_div]
          rw [if_pos (Rat.num_neg.1 (by omega)), hcast, Real.rpow_neg hpos.le]
          push_cast
          rw [neg_inv]
      · rw [if_pos hunit, if_neg hodd, if_neg fun h => hodd h.2.2]
        rfl
    · rw [if_neg hunit, if_neg fun h => hunit ⟨h.1, h.2.1⟩]
  · rw [if_neg fun h => hreal h.2, if_neg hreal, ← cpow_of_neg ha]
    push_cast
    rfl

theorem exactPower_eq_cpow (h : 0 ≤ a ∨ format ≠ .real ∨ q.den = 1 ∧ q.num.natAbs ≤ 2147483647) :
    exactPower format a q = some ((a : ℂ) ^ (q : ℂ)) := by
  unfold exactPower
  split
  · next hwhole =>
    have hq : (q : ℂ) = (q.num : ℂ) := by rw [Rat.cast_def, hwhole.1, Nat.cast_one, div_one]
    rw [hq, Complex.cpow_intCast]
  · next hwhole =>
    rw [if_neg]
    rintro ⟨ha, hreal⟩
    rcases h with hnonneg | hformat | hwhole'
    · exact not_lt.2 hnonneg ha
    · exact hformat hreal
    · exact hwhole hwhole'

/-- Evaluation takes the principal power of a negative number unless the format is real and the
exponent is no small whole number. -/
theorem exactPower_eq_cpow_iff (ha : a < 0) :
    exactPower format a q = some ((a : ℂ) ^ (q : ℂ)) ↔
      format ≠ .real ∨ q.den = 1 ∧ q.num.natAbs ≤ 2147483647 := by
  refine ⟨fun h => ?_, fun h => exactPower_eq_cpow (.inr h)⟩
  by_contra hnot
  obtain ⟨hformat, hlarge⟩ := not_or.1 hnot
  have hreal : format = .real := not_not.1 hformat
  by_cases hden : q.den = 1
  · have hunit : ¬ (q.num.natAbs = 1 ∧ q.den ≤ 4294967295) := fun hunit =>
      hlarge ⟨hden, by omega⟩
    rw [exactPower, if_neg hlarge, if_pos ⟨ha, hreal⟩, if_neg hunit] at h
    cases h
  · rw [exactPower_of_neg ha hden, if_pos hreal] at h
    split at h
    · -- Evaluation takes the real root, which is turned by one half turn.
      have hhalf : (π * Complex.I * ((1 : ℤ) : ℝ) : ℂ).exp = -1 := by
        rw [Int.cast_one, Complex.ofReal_one, mul_one, Complex.exp_pi_mul_I]
      refine exp_half_turns_ne hden 1 (mul_left_cancel₀ (ofReal_rpow_ne_zero ha q) ?_)
      rw [hhalf, ← cpow_of_neg ha, Complex.ofReal_ratCast, ← Option.some.inj h,
        Complex.ofReal_neg, mul_neg_one]
    · cases h

theorem exactRoot_zpow_of_pos (ha : 0 < a) :
    exactRoot format (a ^ q.num) q.den = some ((a : ℂ) ^ (q : ℂ)) := by
  have hpos := zpow_pos ha q.num
  rw [exactRoot, if_neg fun h => not_lt.2 hpos.le h.1]
  have hcast : ((q.den : ℂ)⁻¹) = ((q.den : ℝ)⁻¹ : ℝ) := by push_cast; rfl
  rw [hcast, ← Complex.ofReal_cpow hpos.le, rpow_zpow_inv_den ha, Complex.ofReal_cpow ha.le,
    Complex.ofReal_ratCast]

/-- Evaluation takes the real root of a whole power of a negative number where the exponent is a
reciprocal. -/
theorem exactPower_eq_exactRoot_iff_of_real (ha : a < 0) (hden : q.den ≠ 1)
    (hsmall : q.den ≤ 4294967295) {z : ℂ} (hz : exactRoot .real (a ^ q.num) q.den = some z) :
    exactPower .real a q = some z ↔ q.num.natAbs = 1 := by
  rw [exactRoot_zpow ha, if_pos rfl] at hz
  rw [exactPower_of_neg ha hden, if_pos rfl]
  constructor
  · intro h
    split at h
    · next hunit => exact hunit.1
    · cases h
  · intro hunit
    have hodd : ¬ Even q.num := by
      rw [← Int.natAbs_even, hunit]
      exact Nat.not_even_one
    rw [if_neg hodd] at hz
    split at hz
    · next hden' => rw [if_pos ⟨hunit, hsmall, hden'⟩, hz]
    · cases hz

/-- Unless the format is real, evaluation takes the principal root of a whole power of a negative
number where the exponent is a number of whole turns beyond the unit of its denominator. -/
theorem exactPower_eq_exactRoot_iff_of_ne_real (ha : a < 0) (hden : q.den ≠ 1)
    (hformat : format ≠ .real) {z : ℂ} (hz : exactRoot format (a ^ q.num) q.den = some z) :
    exactPower format a q = some z ↔ q.num % (2 * q.den) = 1 := by
  rw [exactRoot_zpow ha, if_neg hformat] at hz
  rw [exactPower_of_neg ha hden, if_neg hformat, ← hz]
  have hne := ofReal_rpow_ne_zero ha (q : ℝ)
  split
  · next heven =>
    -- The power is positive, so its root is not turned at all, and no even number is 1 modulo 2.
    refine iff_of_false (fun h => ?_) (fun h => ?_)
    · refine exp_half_turns_ne hden 0 (mul_left_cancel₀ hne ?_)
      rw [Option.some.inj h]
      simp
    · have htwo := Int.emod_emod_of_dvd q.num (Int.dvd_mul_right 2 q.den)
      rw [h, Int.even_iff.1 heven] at htwo
      cases htwo
  · rw [← exists_cast_eq_inv_den_add_iff q, ← exp_half_turns_eq_iff, Option.some.injEq]
    exact mul_right_inj' hne

end Branches

namespace Form

variable (x : Nat → ℂ) (functions : Builtin → List ℂ → ℂ) {p : Preferences} {a q : Rat} {n : Nat}
  {f : Form}

/-! ### Roots of rational numbers -/

theorem agreesAt_principal (hq : 0 < q) (n : Nat) :
    (Valuation.principal x functions).AgreesAt q n := by
  intro _
  have hcast : ((q : ℝ) : ℂ) = (q : ℂ) := Complex.ofReal_ratCast q
  change Atom.principal x functions (.radical (ofRat q) n) = Atom.principal x functions (.root q n)
  rw [Atom.principal_radical, value_ofRat, Atom.principal,
    Complex.ofReal_cpow (by exact_mod_cast hq.le), hcast]
  push_cast
  rfl

theorem value_positiveRoot_principal (hq : 0 < q) (hn : 2 ≤ n) :
    (positiveRoot q n).value (Valuation.principal x functions) =
      (((q : ℝ) ^ (n : ℝ)⁻¹ : ℝ) : ℂ) := by
  rw [value_positiveRoot hq hn (agreesAt_principal x functions hq n)]
  change Atom.principal x functions (.root q n) = _
  rw [Atom.principal]

theorem principal_imaginaryUnit :
    Valuation.principal x functions .imaginaryUnit = (π * Complex.I * ((2 : ℝ)⁻¹ : ℝ) : ℂ).exp := by
  have hangle : (π * Complex.I * ((2 : ℝ)⁻¹ : ℝ) : ℂ) = ((π / 2 : ℝ) : ℂ) * Complex.I := by
    push_cast
    ring
  change Atom.principal x functions .imaginaryUnit = _
  rw [Atom.principal, hangle, Complex.exp_mul_I, ← Complex.ofReal_cos, ← Complex.ofReal_sin,
    Real.cos_pi_div_two, Real.sin_pi_div_two]
  simp

theorem value_sixthTurn_principal :
    sixthTurn.value (Valuation.principal x functions) =
      (π * Complex.I * ((3 : ℝ)⁻¹ : ℝ) : ℂ).exp := by
  have hunit : Valuation.principal x functions .imaginaryUnit = Complex.I := by
    change Atom.principal x functions .imaginaryUnit = _
    rw [Atom.principal]
  have hroot : Valuation.principal x functions (.root 3 2) = ((√3 : ℝ) : ℂ) := by
    change Atom.principal x functions (.root 3 2) = _
    rw [Atom.principal, Real.sqrt_eq_rpow]
    norm_num
  have hangle : (π * Complex.I * ((3 : ℝ)⁻¹ : ℝ) : ℂ) = ((π / 3 : ℝ) : ℂ) * Complex.I := by
    push_cast
    ring
  rw [hangle, Complex.exp_mul_I, ← Complex.ofReal_cos, ← Complex.ofReal_sin, Real.cos_pi_div_three,
    Real.sin_pi_div_three]
  simp [sixthTurn_eq, value, termsValue_cons, termsValue_nil, Monomial.value,
    Monomial.factorsValue_cons, Monomial.factorsValue_nil, hunit, hroot]
  ring

/-- Unless the format is real, the root of a negative number has the principal value. -/
theorem value_rationalRoot_of_ne_real {format : ComplexFormat} (ha : a < 0) (hn : 2 ≤ n)
    (hformat : format ≠ .real) (h : rationalRoot format a n = .ok f) :
    f.value (Valuation.principal x functions) = (a : ℂ) ^ (n : ℂ)⁻¹ := by
  have hpos := pos_magnitude ha.ne
  have hroot := value_positiveRoot_principal x functions hpos hn
  have hsimple := monomialsIn_positiveRoot hpos hn
    (admitsPositiveRoot_of_agreesAt hpos hn (agreesAt_principal x functions hpos n))
  have hturn := cpow_of_neg (Rat.cast_lt_zero.2 ha : (a : ℝ) < 0) (n : ℝ)⁻¹
  have hmagnitude : ((Rational.magnitude a : Rat) : ℝ) = -a := by
    rw [Rational.magnitude, if_pos ha, Rat.cast_neg]
  rw [← hmagnitude, ← hroot] at hturn
  rw [rationalRoot, if_neg (not_le.2 ha), if_neg hformat] at h
  rw [show ((n : ℂ)⁻¹) = ((n : ℝ)⁻¹ : ℝ) by push_cast; rfl, ← Complex.ofReal_ratCast]
  -- Square roots and cube roots are turned from the positive root, other roots are kept.
  split at h
  · next htwo =>
    subst htwo
    cases h
    rw [hturn, value_mul_imaginaryUnit hsimple, principal_imaginaryUnit, Nat.cast_ofNat]
  · split at h
    · next hthree =>
      subst hthree
      cases h
      rw [hturn, value_mul_sixthTurn hsimple, value_sixthTurn_principal, Nat.cast_ofNat]
    · cases h
      rw [value_radical hn]
      change Atom.principal x functions (.radical (ofRat a) n) = _
      rw [Atom.principal_radical, value_ofRat]
      push_cast
      rfl

/-- The root of a rational number has the value that evaluation gives it. -/
theorem exactRoot_eq_of_rationalRoot {format : ComplexFormat} (ha : a ≠ 0) (hn : 2 ≤ n)
    (h : rationalRoot format a n = .ok f) :
    exactRoot format a n = some (f.value (Valuation.principal x functions)) := by
  have hroot := value_positiveRoot_principal x functions (pos_magnitude ha) hn
  rcases lt_or_gt_of_ne ha with hneg | hpos
  · have hreal : (a : ℝ) < 0 := Rat.cast_lt_zero.2 hneg
    by_cases hformat : format = .real
    · have hmagnitude : ((Rational.magnitude a : Rat) : ℝ) = -a := by
        rw [Rational.magnitude, if_pos hneg, Rat.cast_neg]
      rw [rationalRoot, if_neg (not_le.2 hneg), if_pos hformat] at h
      rw [exactRoot, if_pos ⟨hreal, hformat⟩]
      split at h
      · next hodd =>
        cases h
        rw [if_pos hodd, value_neg, hroot, hmagnitude, Complex.ofReal_neg]
      · cases h
    · rw [exactRoot, if_neg fun h => hformat h.2,
        value_rationalRoot_of_ne_real x functions hneg hn hformat h, Complex.ofReal_ratCast]
  · have hreal : (0 : ℝ) < a := Rat.cast_pos.2 hpos
    rw [rationalRoot, if_pos hpos.le] at h
    cases h
    rw [exactRoot, if_neg fun h => not_lt.2 hreal.le h.1, hroot,
      Rational.magnitude_of_nonneg (not_lt.2 hpos.le), Complex.ofReal_cpow hreal.le]
    push_cast
    rfl

/-- Roots of rational numbers agree: the form has the value that evaluation gives the root. -/
theorem exactRoot_eq_of_root (hn : 1 ≤ n) (h : root p (ofRat a) n = .ok f) :
    exactRoot p.complexFormat a n = some (f.value (Valuation.principal x functions)) := by
  rw [root] at h
  split at h
  · next hplain =>
    cases h
    rw [value_ofRat, exactRoot]
    rcases Bool.or_eq_true_iff.1 hplain with hone | hzero
    · obtain rfl : n = 1 := le_antisymm (of_decide_eq_true hone) hn
      simp
    · obtain rfl : a = 0 := by simpa [isZero_ofRat] using hzero
      simp [(show n ≠ 0 by omega)]
  · next hplain =>
    simp only [Bool.or_eq_true, decide_eq_true_eq, isZero_ofRat, beq_iff_eq, not_or] at hplain
    rw [toRat?_ofRat] at h
    exact exactRoot_eq_of_rationalRoot x functions hplain.2 (by omega) h

/-! ### Powers of rational numbers -/

/-- The power of a rational number as an atom. -/
theorem ofAtom_power (f g : Form) : ofAtom (.power f g) = ⟨[(⟨[(.power f g, 1)]⟩, 1)]⟩ := by
  have hcollect : Monomial.collectFactors [(Atom.power f g, 1)] = [(.power f g, 1)] := by
    simp [Monomial.collectFactors, Monomial.insertFactor]
  obtain ⟨m, hm⟩ := unfoldings_eq_succ (Monomial.depthFactors [(Atom.power f g, 1)])
  have hparts : shares (powWith (normalize m)) [(.power f g, 1)] =
      [{ kept := [(.power f g, 1)] }] := by
    simp [shares, share, rootIndices, Width.clamp32]
  have hone : one.isOne = true := by simp [isOne, one, toRat?_ofRat]
  rw [ofAtom, ofFactors, hm, normalize, normalizeWith_eq _ _ one_ne_zero, hcollect, hparts]
  simp [sharedTerm, sharedCoefficient, hone, hcollect, ofTerm]

theorem value_ofAtom_power (f g : Form) :
    (ofAtom (.power f g)).value (Valuation.principal x functions) =
      f.value (Valuation.principal x functions) ^ g.value (Valuation.principal x functions) := by
  have hvalue := Atom.principal_power x functions f g
  simp [ofAtom_power, value, termsValue_cons, termsValue_nil, Monomial.value,
    Monomial.factorsValue_cons, Monomial.factorsValue_nil]
  exact hvalue

theorem powNatWith_ofRat (ha : a ≠ 0) (m n : Nat) :
    powNatWith (normalize m) (ofRat a) n = ofRat (a ^ n) := by
  have hsingle : (ofRat a).singleTerm? = some (Monomial.one, a) := by
    simp [ofRat, ha, singleTerm?]
  unfold powNatWith
  split
  · next hn => rw [hn, pow_zero, one]
  · rw [hsingle]
    dsimp only
    rw [show Monomial.one.scaleExponents n = [] from rfl, normalize_nil]
    rfl

theorem pow?_ofRat (ha : a ≠ 0) (k : Int) :
    (ofRat a).pow? k = if maxExpandedPower < k.natAbs then none else some (ofRat (a ^ k)) := by
  split
  · next hlarge => exact powWith_of_lt _ _ hlarge
  · next hlarge =>
    rw [pow?, powWith, if_neg hlarge]
    split
    · next hneg =>
      have hinverse : inverseWith (normalize (unfoldings (ofRat a).depth)) maxRationalizations
          (ofRat a) = some (ofRat a⁻¹) := by
        have h := inverse?_ofRat a
        rwa [Rational.inverse?, if_neg ha] at h
      rw [hinverse, Option.map_some, powNatWith_ofRat (inv_ne_zero ha), inv_pow, ← zpow_natCast,
        ← zpow_neg, show -(k.natAbs : Int) = k by omega]
    · next hnonneg =>
      rw [powNatWith_ofRat ha, ← zpow_natCast, show (k.natAbs : Int) = k by omega]

/-- The exponent stands for the root of a whole power that is taken exactly. -/
def IsExpandedRoot (q : Rat) : Prop :=
  q.den ≠ 1 ∧ q.num.natAbs ≤ maxExpandedPower ∧ q.den ≤ maxRootIndex

theorem IsExpandedRoot.two_le_den (h : IsExpandedRoot q) : 2 ≤ q.den := by
  have := h.1
  have := q.den_pos
  omega

theorem isExpandedRoot_of_toInt64? (h : Rational.toInt64? q = none)
    (hsmall : q.num.natAbs ≤ maxExpandedPower ∧ q.den ≤ maxRootIndex) : IsExpandedRoot q := by
  refine ⟨fun hden => ?_, hsmall⟩
  have hnum := hsmall.1
  simp [Rational.toInt64?, Rational.toInteger?, hden, Width.isInt64, maxExpandedPower] at h hnum
  omega

/-- The power of a rational number: a root of a whole power where that is taken exactly, and
otherwise what has the value of the principal power. -/
theorem rationalPower_cases (ha : a ≠ 0) (h : rationalPower p (ofRat a) q = .ok f) :
    (IsExpandedRoot q ∧ rationalRoot p.complexFormat (a ^ q.num) q.den = .ok f) ∨
      ¬ IsExpandedRoot q ∧ f.value (Valuation.principal x functions) = (a : ℂ) ^ (q : ℂ) := by
  have hkept : (ofAtom (.power (ofRat a) (ofRat q))).value (Valuation.principal x functions) =
      (a : ℂ) ^ (q : ℂ) := by
    rw [value_ofAtom_power, value_ofRat, value_ofRat]
  obtain ⟨k, hk, rfl⟩ | ⟨hlarge, hnum, hden, raised, hraised, hroot⟩ | ⟨-, rfl, hlarge⟩ :=
    rationalPower_inversion h
  · obtain ⟨hden, hnum⟩ := Rational.toInteger?_eq_some_iff.1 (Option.eq_some_of_filter_eq_some hk)
    have hq : (q : ℂ) = (k : ℂ) := by rw [Rat.cast_def, hden, hnum, Nat.cast_one, div_one]
    refine .inr ⟨fun hroot => hroot.1 hden, ?_⟩
    rw [pow?_ofRat ha]
    split
    · exact hkept
    · rw [Option.getD_some, value_ofRat, hq, Complex.cpow_intCast, Rat.cast_zpow]
  · rw [pow?_ofRat ha, if_neg (not_lt.2 hnum)] at hraised
    cases hraised
    have hexpanded := isExpandedRoot_of_toInt64? hlarge ⟨hnum, hden⟩
    have hindex : 1 < q.den := hexpanded.two_le_den
    have hpow : (ofRat (a ^ q.num)).isZero = false := by
      simp [isZero_ofRat, zpow_ne_zero _ ha]
    rw [rootOrUnreal_eq_ok_iff, root, if_neg (by simp [hpow, hindex]), toRat?_ofRat] at hroot
    exact .inl ⟨hexpanded, hroot⟩
  · refine .inr ⟨fun hexpanded => ?_, hkept⟩
    obtain ⟨-, hnum, hden⟩ := hexpanded
    rw [pow?_ofRat ha, if_neg (not_lt.2 hnum)] at hlarge
    simp only [reduceCtorEq, or_false] at hlarge
    omega

/-- Where the form of a power of a rational number and evaluation agree on its value. -/
def PowersAgree (format : ComplexFormat) (a q : Rat) : Prop :=
  0 ≤ a ∨
    (IsExpandedRoot q ∧
      if format = .real then q.num.natAbs = 1 else q.num % (2 * q.den) = 1) ∨
    ¬ IsExpandedRoot q ∧ (format ≠ .real ∨ q.den = 1 ∧ q.num.natAbs ≤ 2147483647)

/-- Powers of positive numbers agree. -/
theorem exactPower_eq_of_pos (ha : 0 < a) (h : rationalPower p (ofRat a) q = .ok f) :
    exactPower p.complexFormat a q = some (f.value (Valuation.principal x functions)) := by
  have hreal : (0 : ℝ) < a := Rat.cast_pos.2 ha
  rw [exactPower_eq_cpow (.inl hreal.le)]
  rcases rationalPower_cases x functions ha.ne' h with ⟨hroot, hf⟩ | ⟨-, hf⟩
  · have hvalue := exactRoot_eq_of_rationalRoot x functions (zpow_ne_zero _ ha.ne')
      hroot.two_le_den hf
    rw [Rat.cast_zpow, exactRoot_zpow_of_pos hreal] at hvalue
    exact hvalue
  · rw [hf, Complex.ofReal_ratCast]

/-- Powers of negative numbers agree where the form and evaluation are on one branch. -/
theorem exactPower_eq_iff_of_neg (ha : a < 0) (h : rationalPower p (ofRat a) q = .ok f) :
    exactPower p.complexFormat a q = some (f.value (Valuation.principal x functions)) ↔
      PowersAgree p.complexFormat a q := by
  unfold PowersAgree
  have hreal : (a : ℝ) < 0 := Rat.cast_lt_zero.2 ha
  rcases rationalPower_cases x functions ha.ne h with ⟨hroot, hf⟩ | ⟨hroot, hf⟩
  · have hvalue := exactRoot_eq_of_rationalRoot x functions (zpow_ne_zero _ ha.ne)
      hroot.two_le_den hf
    rw [Rat.cast_zpow] at hvalue
    by_cases hformat : p.complexFormat = .real
    · have hsmall : q.den ≤ 4294967295 := hroot.2.2.trans (by decide)
      rw [hformat] at hvalue ⊢
      rw [exactPower_eq_exactRoot_iff_of_real hreal hroot.1 hsmall hvalue]
      simp [hroot, ha]
    · rw [exactPower_eq_exactRoot_iff_of_ne_real hreal hroot.1 hformat hvalue]
      simp [hroot, ha, hformat]
  · rw [hf, ← Complex.ofReal_ratCast, exactPower_eq_cpow_iff hreal]
    simp [hroot, ha]

/-- The form of a power of a rational number has the value that evaluation gives the power exactly
where the base is not negative or both are on one branch. -/
theorem exactPower_eq_iff (h : power p (ofRat a) (ofRat q) = .ok f) :
    exactPower p.complexFormat a q = some (f.value (Valuation.principal x functions)) ↔
      PowersAgree p.complexFormat a q := by
  rw [power, toRat?_ofRat] at h
  dsimp only at h
  split at h
  · next hzero =>
    obtain rfl : a = 0 := by simpa [isZero_ofRat] using hzero
    split at h
    · next hpos =>
      cases h
      have hq : (q : ℂ) ≠ 0 := Rat.cast_ne_zero.2 hpos.ne'
      rw [exactPower_eq_cpow (.inl (by simp)), value_zero]
      simp [PowersAgree, hq]
    · cases h
  · next hzero =>
    have ha : a ≠ 0 := by simpa [isZero_ofRat] using hzero
    rcases lt_or_gt_of_ne ha with hneg | hpos
    · exact exactPower_eq_iff_of_neg x functions hneg h
    · exact iff_of_true (exactPower_eq_of_pos x functions hpos h) (.inl hpos.le)

end Form

end Resolvent

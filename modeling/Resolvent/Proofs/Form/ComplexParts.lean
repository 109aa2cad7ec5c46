import Resolvent.Proofs.Form.NthRoot
import Resolvent.Proofs.Form.RealValue

/-!
# Real and imaginary parts of values

Where a form splits, its value is that of its first part plus the imaginary unit times that of its
second part (`Form.value_splitComplex?`).  Both parts are known to be real, and they are as long as no
radical with an odd index is of a negative number: radicals have their principal values, and that of
a negative number is never real (`Atom.im_principal_radical_eq_zero_iff`).

`Form.splitComplex?_spec` draws the conclusions.  The exact real and imaginary parts are those of the
value, the exact conjugate has the conjugate value, and the exact absolute value is the modulus.  The
sign of a real number is read off its double, and so is that of the sum of squares under a root; that
these doubles have the right sign is a condition (`Form.DoubleHasSign`).
-/

namespace Resolvent

open scoped ComplexOrder

variable {x : Nat → ℂ} {functions : Builtin → List ℂ → ℂ}

/-! ### Radicals with real values -/

/-- The principal root of a real number is real if and only if the number is not negative. -/
theorem im_cpow_inv_eq_zero_iff {z : ℂ} (hz : z.im = 0) {n : Nat} (hn : 2 ≤ n) :
    (z ^ (n : ℂ)⁻¹).im = 0 ↔ 0 ≤ z.re := by
  refine ⟨fun h => ?_, fun h => im_cpow_inv_eq_zero hz h n⟩
  by_contra hneg
  rw [not_le] at hneg
  have hreal : z = (z.re : ℂ) := Complex.ext rfl hz
  have hexponent : (n : ℂ)⁻¹ = ((n : ℝ)⁻¹ : ℝ) := by push_cast; rfl
  have hangle : (Real.pi * Complex.I * ((n : ℝ)⁻¹ : ℝ) : ℂ) =
      ((Real.pi * (n : ℝ)⁻¹ : ℝ) : ℂ) * Complex.I := by
    push_cast
    ring
  -- the angle is a part of a half turn
  have hinv : 0 < (n : ℝ)⁻¹ ∧ (n : ℝ)⁻¹ < 1 :=
    ⟨inv_pos.2 (by positivity), inv_lt_one_of_one_lt₀ (by exact_mod_cast hn)⟩
  have hsin : 0 < Real.sin (Real.pi * (n : ℝ)⁻¹) :=
    Real.sin_pos_of_pos_of_lt_pi (mul_pos Real.pi_pos hinv.1)
      (mul_lt_of_lt_one_right Real.pi_pos hinv.2)
  have hmodulus : 0 < (-z.re) ^ (n : ℝ)⁻¹ := Real.rpow_pos_of_pos (neg_pos.2 hneg) _
  rw [hreal, hexponent, cpow_of_neg hneg, hangle, Complex.im_ofReal_mul,
    Complex.exp_ofReal_mul_I_im] at h
  exact (mul_pos hmodulus hsin).ne' h

/-- A radical of a real number is real if and only if the number is not negative. -/
theorem Atom.im_principal_radical_eq_zero_iff {f : Form} {n : Nat} (hn : 2 ≤ n)
    (hf : (f.value (Atom.principal x functions)).im = 0) :
    ((Atom.radical f n).principal x functions).im = 0 ↔
      0 ≤ (f.value (Atom.principal x functions)).re := by
  rw [Atom.principal_radical]
  exact im_cpow_inv_eq_zero_iff hf hn

/-- Real numbers that a number is put together from are its real and its imaginary part. -/
theorem eq_re_and_eq_im {z u w : ℂ} (hz : z = u + Complex.I * w) (hu : u.im = 0) (hw : w.im = 0) :
    u = (z.re : ℂ) ∧ w = (z.im : ℂ) := by
  constructor <;> apply Complex.ext <;> simp [hz, hu, hw]

namespace Form

variable {f a b r : Form} {p : Preferences}

/-! ### Parts -/

theorem realPart_imaginaryPart_of_splitComplex? (h : f.splitComplex? = some (a, b)) :
    f.realPart = a ∧ f.imaginaryPart = b := by
  unfold splitComplex? at h
  split at h
  · exact Prod.mk.inj (Option.some.inj h)
  · cases h

/-- The properties of the atoms of a form are those of the atoms of its parts. -/
theorem Everywhere.parts {A : Atom → Prop} (hf : f.Everywhere A)
    (h : f.splitComplex? = some (a, b)) : a.Everywhere A ∧ b.Everywhere A := by
  obtain ⟨rfl, rfl⟩ := realPart_imaginaryPart_of_splitComplex? h
  have hf := everywhere_iff.1 hf
  exact ⟨everywhere_iff.2 hf.realPart, everywhere_iff.2 <| hf.imaginaryPart fun m hm y hy =>
    hm y (List.mem_filter.1 hy).1⟩

theorem principal_imaginaryUnit_eq_I : Valuation.principal x functions .imaginaryUnit = Complex.I := by
  change Atom.principal x functions .imaginaryUnit = _
  rw [Atom.principal]

/-- What normalisation makes of roots are roots, so it takes no radical of a negative number. -/
theorem settles_oddRadicandNonneg (v : Atom → ℂ) : Atom.Settles (Atom.OddRadicandNonneg v) where
  reciprocal := fun _ => trivial
  rootShare := fun _ _ y hy => by
    rw [(eq_of_mem_kept_rootShare hy).1]
    trivial

/-- The value of a form that splits is put together from the values of its parts. -/
theorem value_splitComplex? (hf : f.Constructible) (h : f.splitComplex? = some (a, b)) :
    f.value (Valuation.principal x functions) = a.value (Valuation.principal x functions) +
      Complex.I * b.value (Valuation.principal x functions) := by
  obtain ⟨rfl, rfl⟩ := realPart_imaginaryPart_of_splitComplex? h
  rw [hf.stored.unitReduced.value_split (Valuation.principal x functions),
    principal_imaginaryUnit_eq_I, mul_comm Complex.I]

/-- The parts of a form have real values. -/
theorem im_value_parts (h : f.splitComplex? = some (a, b))
    (hodd : f.Everywhere (Atom.OddRadicandNonneg (Valuation.principal x functions))) :
    (a.value (Valuation.principal x functions)).im = 0 ∧
      (b.value (Valuation.principal x functions)).im = 0 := by
  obtain ⟨ha, hb⟩ := isKnownReal_of_splitComplex? h
  obtain ⟨hodda, hoddb⟩ := hodd.parts h
  exact ⟨im_value_eq_zero a ha hodda, im_value_eq_zero b hb hoddb⟩

/-! ### The conjugate -/

theorem apart_isKnownReal :
    Atom.Apart (fun a => a.isKnownReal = true) (· = .imaginaryUnit) := by
  refine ⟨?_, fun _ _ _ _ => nofun⟩
  rintro _ h rfl
  simp [Atom.isKnownReal] at h

/-- What is known to be real has monomials of atoms that are known to be real. -/
theorem reducedIn_isKnownReal (h : f.isKnownReal = true) (hf : f.MonomialsIn Monomial.Reduced) :
    f.MonomialsIn (Monomial.ReducedIn fun a => a.isKnownReal = true) := by
  obtain ⟨terms⟩ := f
  rw [isKnownReal, areTermsKnownReal_iff] at h
  intro t ht
  obtain ⟨⟨factors⟩, q⟩ := t
  have hfactors := h _ ht
  rw [Monomial.isKnownReal, Monomial.areFactorsKnownReal_iff] at hfactors
  exact ⟨hf _ ht, hfactors⟩

/-- The product of the form with the imaginary unit has the product of the values. -/
def HasUnitMultiple (v : Valuation ℂ) (f : Form) : Prop :=
  v.AdmitsMul f imaginaryUnit ∨ f.MonomialsIn Monomial.Reduced

theorem value_mul_unit {v : Valuation ℂ} (hb : b.isKnownReal = true) (h : b.HasUnitMultiple v) :
    (mul b imaginaryUnit).value v = b.value v * v .imaginaryUnit := by
  rw [← value_imaginaryUnit]
  rcases h with hadmits | hreduced
  · exact value_mul hadmits
  · exact value_mul_of_reducedIn v apart_isKnownReal (reducedIn_isKnownReal hb hreduced)
      reducedIn_imaginaryUnit

/-! ### The absolute value -/

/-- The double of the form is negative only if its value is not positive, and not negative only if
its value is not. -/
structure DoubleHasSign (unit : AngleUnit) (v : Atom → ℂ) (f : Form) : Prop where
  nonpos : (f.constantValue unit).re < 0.0 → (f.value v).re ≤ 0
  nonneg : ¬ (f.constantValue unit).re < 0.0 → 0 ≤ (f.value v).re

theorem exists_factorsValue_eq {factors : List (Atom × Int)}
    (h : ∀ y ∈ factors, y.1.IsRealConstant) :
    ∃ t : ℝ, 0 < t ∧ Monomial.factorsValue (Valuation.principal x functions) factors = t := by
  have hpositive := Valuation.isPositive_principal x functions
  induction factors with
  | nil => exact ⟨1, one_pos, by rw [Monomial.factorsValue_nil, Complex.ofReal_one]⟩
  | cons y factors ih =>
    obtain ⟨a, k⟩ := y
    obtain ⟨ha, hfactors⟩ := List.forall_mem_cons.1 h
    obtain ⟨t, ht, heq⟩ := ih hfactors
    obtain ⟨c, hc, hvalue⟩ : ∃ c : ℝ, 0 < c ∧ Valuation.principal x functions a = c := by
      rcases ha with rfl | rfl
      · exact ⟨Real.pi, Real.pi_pos, hpositive.pi⟩
      · exact ⟨Real.exp 1, Real.exp_pos 1, hpositive.e⟩
    refine ⟨c ^ k * t, mul_pos (zpow_pos hc k) ht, ?_⟩
    rw [Monomial.factorsValue_cons, heq, hvalue]
    push_cast
    rfl

/-- The root of a positive rational number is positive. -/
theorem nonneg_rationalRoot {q : Rat} {n : Nat} {format : ComplexFormat} (hq : 0 < q) (hn : 2 ≤ n)
    (h : rationalRoot format q n = .ok r) :
    0 ≤ r.value (Valuation.principal x functions) := by
  rw [rationalRoot, if_pos hq.le, Rational.magnitude, if_neg (not_lt.2 hq.le)] at h
  cases h
  rw [value_positiveRoot hq hn (agreesAt_principal x functions hq n),
    (Valuation.isPositive_principal x functions).root q n hq]
  exact Complex.zero_le_real.2 (Real.rpow_nonneg (Rat.cast_nonneg.2 hq.le) _)

theorem ratCast_nonneg_iff {q : Rat} : (0 : ℂ) ≤ q ↔ 0 ≤ q := by
  rw [← Complex.ofReal_ratCast, Complex.zero_le_real, Rat.cast_nonneg]

/-- The principal square root of a number that is not negative is not negative. -/
theorem nonneg_radical_two (hnonneg : 0 ≤ f.value (Valuation.principal x functions)) :
    0 ≤ (radical f 2).value (Valuation.principal x functions) := by
  have hreal : f.value (Valuation.principal x functions) =
      ((f.value (Valuation.principal x functions)).re : ℂ) :=
    Complex.ext rfl (Complex.nonneg_iff.1 hnonneg).2.symm
  have hradical : Valuation.principal x functions (.radical f 2) =
      f.value (Valuation.principal x functions) ^ ((2 : ℕ) : ℂ)⁻¹ :=
    Atom.principal_radical x functions f 2
  have hexponent : ((2 : ℕ) : ℂ)⁻¹ = ((2 : ℝ)⁻¹ : ℝ) := by push_cast; rfl
  rw [value_radical le_rfl, hradical, hreal, hexponent,
    ← Complex.ofReal_cpow (Complex.nonneg_iff.1 hnonneg).1]
  exact Complex.zero_le_real.2 (Real.rpow_nonneg (Complex.nonneg_iff.1 hnonneg).1 _)

section SquareRoots

variable (hf : f.Constructible) (hnonneg : 0 ≤ f.value (Valuation.principal x functions))

include hf hnonneg

/-- The square root of a power of constants that is not negative is not negative. -/
theorem nonneg_mul_constants {q : Rat} {factors : List (Atom × Int)} {format : ComplexFormat}
    (hpower : f.constantPower? 2 = some (q, factors)) (hr : rationalRoot format q 2 = .ok r) :
    0 ≤ (mul r (ofFactors 1 factors)).value (Valuation.principal x functions) := by
  obtain ⟨m, -, hfactors, hconstants⟩ := constantPower?_eq_some hpower
  obtain ⟨hvalue, m', hsingle⟩ :=
    value_constantPower? (v := Valuation.principal x functions) (by decide) hpower
  obtain ⟨t, ht, heq⟩ : ∃ t : ℝ, 0 < t ∧
      Monomial.factorsValue (Valuation.principal x functions) factors = t :=
    exists_factorsValue_eq fun y hy => by
      obtain ⟨z, hz, rfl⟩ := List.mem_map.1 (hfactors ▸ hy)
      exact (hconstants z hz).1
  have hq0 : q ≠ 0 := (hf.noZeros (m', q) (by simp [terms_of_singleTerm? hsingle])).1
  have hq : 0 ≤ q := by
    rw [hvalue, heq, ← Complex.ofReal_ratCast, ← Complex.ofReal_pow, ← Complex.ofReal_mul,
      Complex.zero_le_real, mul_nonneg_iff_of_pos_right (pow_pos ht 2)] at hnonneg
    exact Rat.cast_nonneg.1 hnonneg
  rw [value_mul_constants _ hf.stored le_rfl hpower hr, heq]
  exact mul_nonneg (nonneg_rationalRoot (lt_of_le_of_ne hq hq0.symm) le_rfl hr)
    (Complex.zero_le_real.2 ht.le)

/-- The square root of a number that is not negative is not negative, unless its double has the
wrong sign. -/
theorem nonneg_root_two
    (hsign : f.DoubleHasSign p.angleUnit (Valuation.principal x functions))
    (h : root p f 2 = .ok r) : 0 ≤ r.value (Valuation.principal x functions) := by
  have hpow : r.value (Valuation.principal x functions) ^ 2 =
      f.value (Valuation.principal x functions) :=
    value_root_pow (Valuation.takesRadicals_principal x functions) hf one_le_two
      (.inl (by decide)) (fun a b _ h => pairsRoots_principal x functions h) h
  have hother (h : otherRoot p f 2 = .ok r) :
      0 ≤ r.value (Valuation.principal x functions) := by
    rw [otherRoot] at h
    split at h
    · next q factors hpower =>
      obtain ⟨s, hs, rfl⟩ := Except.map_eq_ok_iff.1 h
      exact nonneg_mul_constants hf hnonneg hpower hs
    · rcases generalRoot_cases h with rfl | ⟨-, -, hneg⟩
      · exact nonneg_radical_two hnonneg
      · -- the double is negative, so the value is zero, and so is its root
        have hre := le_antisymm (hsign.nonpos hneg) (Complex.nonneg_iff.1 hnonneg).1
        have hzero : f.value (Valuation.principal x functions) = 0 :=
          Complex.ext hre (Complex.nonneg_iff.1 hnonneg).2.symm
        rw [hzero] at hpow
        exact (pow_eq_zero_iff two_ne_zero).1 hpow ▸ le_rfl
  rw [root] at h
  split at h
  · cases h
    exact hnonneg
  · next hzero =>
    have hne : f ≠ zero := fun heq => hzero (by rw [isZero_iff.2 heq, Bool.or_true])
    split at h
    · next q hq =>
      rw [toRat?_eq_some _ hq, ratCast_nonneg_iff] at hnonneg
      have hq0 := ne_zero_of_toRat? hf.noZeros hne hq
      exact nonneg_rationalRoot (lt_of_le_of_ne hnonneg hq0.symm) le_rfl h
    · rw [irrationalRoot, if_pos rfl] at h
      split at h
      · exact hother h
      · next u w hparts =>
        -- a number that is not negative has no imaginary part
        obtain ⟨hw, hvalue⟩ := value_of_gaussianParts? (v := Valuation.principal x functions)
          hf.stored.unitReduced hparts
        have him := (Complex.nonneg_iff.1 hnonneg).2.symm
        rw [hvalue, principal_imaginaryUnit_eq_I] at him
        have hzero : (w : ℝ) = 0 := by simpa using him
        exact absurd (Rat.cast_eq_zero.1 hzero) hw

end SquareRoots

/-- What the absolute value of a form is computed from: its double or, where the form is not real,
the squares of its parts and the double of their sum. -/
def AbsoluteWithin (unit : AngleUnit) (v : Valuation ℂ) (f : Form) : Prop :=
  f.toRat? = none → ∀ a b, f.splitComplex? = some (a, b) →
    if b.isZero then f.DoubleHasSign unit v
    else v.AdmitsMul a a ∧ v.AdmitsMul b b ∧ (add (mul a a) (mul b b)).DoubleHasSign unit v

theorem magnitude_eq_abs (q : Rat) : Rational.magnitude q = |q| := by
  rw [Rational.magnitude]
  split
  · next hneg => exact (abs_of_neg hneg).symm
  · next hnonneg => exact (abs_of_nonneg (not_lt.1 hnonneg)).symm

/-- The magnitude of a real number is its modulus if and only if its double has its sign. -/
theorem value_magnitudeOfReal?_iff {unit : AngleUnit} {v : Valuation ℂ}
    (him : (f.value v).im = 0) (h : f.magnitudeOfReal? unit = some r) :
    r.value v = (‖f.value v‖ : ℂ) ↔ f.DoubleHasSign unit v := by
  have hreal : f.value v = ((f.value v).re : ℂ) := Complex.ext rfl him
  have hmodulus : ‖f.value v‖ = |(f.value v).re| := by rw [hreal]; exact Complex.norm_real _
  rw [magnitudeOfReal?] at h
  split at h
  · cases h
    rw [hmodulus]
    by_cases hneg : (f.constantValue unit).re < 0.0
    · rw [if_pos hneg, value_neg, hreal, ← Complex.ofReal_neg, Complex.ofReal_inj,
        Complex.ofReal_re, eq_comm, abs_eq_neg_self]
      exact ⟨fun hle => ⟨fun _ => hle, fun hnot => absurd hneg hnot⟩, fun hsign => hsign.nonpos hneg⟩
    · rw [if_neg hneg, hreal, Complex.ofReal_inj, Complex.ofReal_re, eq_comm, abs_eq_self]
      exact ⟨fun hle => ⟨fun hlt => absurd hlt hneg, fun _ => hle⟩, fun hsign => hsign.nonneg hneg⟩
  · cases h

/-- The squares of the parts add up to the square of the modulus. -/
theorem sq_add_sq_eq_norm_sq {z u w : ℂ} (hz : z = u + Complex.I * w) (hu : u.im = 0)
    (hw : w.im = 0) : u ^ 2 + w ^ 2 = (‖z‖ : ℂ) ^ 2 := by
  obtain ⟨hre, him⟩ := eq_re_and_eq_im hz hu hw
  rw [← Complex.ofReal_pow, Complex.sq_norm, Complex.normSq_apply, hre, him]
  push_cast
  ring

/-- The square root of the sum of the squares of the parts is the modulus. -/
theorem value_root_squares (hf : f.Constructible) (hsplit : f.splitComplex? = some (a, b))
    (hodd : f.Everywhere (Atom.OddRadicandNonneg (Valuation.principal x functions)))
    (ha : (Valuation.principal x functions).AdmitsMul a a)
    (hb : (Valuation.principal x functions).AdmitsMul b b)
    (hsign : (add (mul a a) (mul b b)).DoubleHasSign p.angleUnit (Valuation.principal x functions))
    (hr : root p (add (mul a a) (mul b b)) 2 = .ok r) :
    r.value (Valuation.principal x functions) =
      (‖f.value (Valuation.principal x functions)‖ : ℂ) := by
  obtain ⟨hre, him⟩ := im_value_parts hsplit hodd
  obtain ⟨hca, hcb⟩ := hf.parts hsplit
  have hsquares : (add (mul a a) (mul b b)).value (Valuation.principal x functions) =
      (‖f.value (Valuation.principal x functions)‖ : ℂ) ^ 2 := by
    rw [value_add, value_mul ha, value_mul hb, ← sq, ← sq,
      sq_add_sq_eq_norm_sq (value_splitComplex? hf hsplit) hre him]
  have hsum : (add (mul a a) (mul b b)).Constructible := (hca.mul hca).add (hcb.mul hcb)
  have hnorm : (0 : ℂ) ≤ ‖f.value (Valuation.principal x functions)‖ :=
    Complex.zero_le_real.2 (norm_nonneg _)
  have hpow : r.value (Valuation.principal x functions) ^ 2 =
      (‖f.value (Valuation.principal x functions)‖ : ℂ) ^ 2 := by
    rw [← hsquares]
    exact value_root_pow (Valuation.takesRadicals_principal x functions) hsum one_le_two
      (.inl (by decide)) (fun a b _ h => pairsRoots_principal x functions h) hr
  have hnonneg := nonneg_root_two hsum (hsquares ▸ pow_nonneg hnorm 2) hsign hr
  rcases sq_eq_sq_iff_eq_or_eq_neg.1 hpow with heq | heq
  · exact heq
  · rw [heq, Left.nonneg_neg_iff] at hnonneg
    rw [heq, le_antisymm hnonneg hnorm, NegZeroClass.neg_zero]

/-- The absolute value is the modulus. -/
theorem value_absolute? (hf : f.Constructible)
    (hodd : f.Everywhere (Atom.OddRadicandNonneg (Valuation.principal x functions)))
    (hwithin : f.AbsoluteWithin p.angleUnit (Valuation.principal x functions))
    (h : f.absolute? p = some r) :
    r.value (Valuation.principal x functions) =
      (‖f.value (Valuation.principal x functions)‖ : ℂ) := by
  rw [absolute?] at h
  split at h
  · next q hq =>
    cases h
    rw [toRat?_eq_some _ hq, value_ofRat, magnitude_eq_abs, ← Complex.ofReal_ratCast q,
      Complex.norm_real, Real.norm_eq_abs, ← Rat.cast_abs, Complex.ofReal_ratCast]
  · next re im hq hsplit =>
    have hwithin := hwithin hq re im hsplit
    have hvalue : f.value (Valuation.principal x functions) = _ := value_splitComplex? hf hsplit
    split at h
    · next hzero =>
      rw [if_pos hzero] at hwithin
      refine (value_magnitudeOfReal?_iff ?_ h).2 hwithin
      rw [hvalue, isZero_iff.1 hzero, value_zero, mul_zero, AddZeroClass.add_zero]
      exact (im_value_parts hsplit hodd).1
    · next hzero =>
      rw [if_neg hzero] at hwithin
      obtain ⟨hmulre, hmulim, hsign⟩ := hwithin
      refine value_root_squares hf hsplit hodd hmulre hmulim hsign ?_
      cases hr : root p (add (mul re re) (mul im im)) 2 with
      | error e => simp [hr, Except.toOption] at h
      | ok g => simpa [hr, Except.toOption] using h
  · cases h

/-! ### Forms that split -/

/-- The conjugate of a form has the conjugate value. -/
theorem value_conjugate? (hf : f.Constructible) (hsplit : f.splitComplex? = some (a, b))
    (hodd : f.Everywhere (Atom.OddRadicandNonneg (Valuation.principal x functions)))
    (hunit : b.HasUnitMultiple (Valuation.principal x functions)) :
    (sub a (mul b imaginaryUnit)).value (Valuation.principal x functions) =
      starRingEnd ℂ (f.value (Valuation.principal x functions)) := by
  obtain ⟨hre, him⟩ := im_value_parts hsplit hodd
  rw [value_sub, value_mul_unit (isKnownReal_of_splitComplex? hsplit).2 hunit,
    principal_imaginaryUnit_eq_I, value_splitComplex? hf hsplit, map_add, map_mul, Complex.conj_I,
    Complex.conj_eq_iff_im.2 hre, Complex.conj_eq_iff_im.2 him]
  ring

/-- **The real and the imaginary part.**  The value of a form that splits is put together from those
of its parts.  If no radical with an odd index in it is of a negative number, then its exact real and
imaginary parts have the values that they should have, which are real, its exact conjugate has the
conjugate value as far as multiplying by the imaginary unit keeps values, and its exact absolute value
is the modulus as far as doubles tell signs. -/
theorem splitComplex?_spec (hf : f.Constructible) (hsplit : f.splitComplex? = some (a, b))
    (p : Preferences) (rest : List Form) :
    let v := Valuation.principal x functions
    f.value v = a.value v + Complex.I * b.value v ∧
      (f.Everywhere (Atom.OddRadicandNonneg v) →
        (exactValue? p .re f rest = .ok (some a) ∧ a.value v = ((f.value v).re : ℂ)) ∧
        (exactValue? p .im f rest = .ok (some b) ∧ b.value v = ((f.value v).im : ℂ)) ∧
        (∃ c, f.conjugate? = some c ∧ exactValue? p .conj f rest = .ok (some c) ∧
          (b.HasUnitMultiple v → c.value v = starRingEnd ℂ (f.value v))) ∧
        ∀ r, exactValue? p .abs f rest = .ok (some r) → f.AbsoluteWithin p.angleUnit v →
          r.value v = (‖f.value v‖ : ℂ)) := by
  intro v
  have hvalue : f.value v = a.value v + Complex.I * b.value v := value_splitComplex? hf hsplit
  have hconjugate : f.conjugate? = some (sub a (mul b imaginaryUnit)) := by
    rw [conjugate?, hsplit]
    rfl
  refine ⟨hvalue, fun hodd => ?_⟩
  obtain ⟨ha, hb⟩ := im_value_parts hsplit hodd
  obtain ⟨hre, him⟩ := eq_re_and_eq_im hvalue ha hb
  exact ⟨⟨by rw [exactValue?, hsplit]; rfl, hre⟩, ⟨by rw [exactValue?, hsplit]; rfl, him⟩,
    ⟨_, hconjugate, congrArg Except.ok hconjugate, value_conjugate? hf hsplit hodd⟩,
    fun r hr hwithin => value_absolute? hf hodd hwithin (Except.ok.inj hr)⟩

/-- The sum of one and the circle number. -/
def onePlusPi : Form := add one pi

/-- The cube root of this sum and twice the imaginary unit. -/
def cubeRootPlusUnit : Form := add (radical onePlusPi 3) (imaginaryUnit.scale 2)

theorem nonneg_onePlusPi : 0 ≤ (onePlusPi.value (Atom.principal x functions)).re := by
  have hpi := (Valuation.isPositive_principal x functions).pi
  change Atom.principal x functions .pi = _ at hpi
  have hterms : onePlusPi = ⟨[(⟨[]⟩, 1), (⟨[(.pi, 1)]⟩, 1)]⟩ := by with_unfolding_all rfl
  have hvalue : onePlusPi.value (Atom.principal x functions) = ((1 + Real.pi : ℝ) : ℂ) := by
    rw [hterms, value, termsValue_cons, termsValue_cons, termsValue_nil, Monomial.value,
      Monomial.value, Monomial.factorsValue_cons, Monomial.factorsValue_nil, hpi]
    simp
  rw [hvalue, Complex.ofReal_re]
  linarith [Real.pi_pos]

theorem everywhere_cubeRootPlusUnit :
    cubeRootPlusUnit.Everywhere (Atom.OddRadicandNonneg (Atom.principal x functions)) := by
  have hclosed := closed_everywhere (settles_oddRadicandNonneg (Atom.principal x functions))
  have hpi : onePlusPi.Everywhere (Atom.OddRadicandNonneg (Atom.principal x functions)) :=
    everywhere_iff.2 ((monomialsIn_ofRat hclosed.one 1).add
      (monomialsIn_ofAtom hclosed ⟨trivial, fun _ h => by cases h⟩))
  have hradical : (Atom.radical onePlusPi 3).Everywhere
      (Atom.OddRadicandNonneg (Atom.principal x functions)) :=
    ⟨fun _ => nonneg_onePlusPi, Atom.throughout_radical.2 hpi⟩
  exact everywhere_iff.2 ((monomialsIn_ofAtom hclosed hradical).add
    ((monomialsIn_ofAtom hclosed (a := .imaginaryUnit) ⟨trivial, fun _ h => by cases h⟩).scale 2))

/-- The absolute value of `3 + 4i` is found to be 5. -/
theorem absoluteWithin_three_add_four_unit {v : Valuation ℂ} :
    (add (ofRat 3) (imaginaryUnit.scale 4)).AbsoluteWithin .radian v := by
  intro _ a b hparts
  have hsplit : (add (ofRat 3) (imaginaryUnit.scale 4)).splitComplex? =
      some (ofRat 3, ofRat 4) := by with_unfolding_all rfl
  have hsum : add (mul (ofRat 3) (ofRat 3)) (mul (ofRat 4) (ofRat 4)) = ofRat 25 := by
    with_unfolding_all rfl
  obtain ⟨rfl, rfl⟩ := Prod.mk.inj (Option.some.inj (hsplit.symm.trans hparts))
  rw [if_neg (by with_unfolding_all decide), hsum]
  refine ⟨mulWithin_ofRat _ _ 3, mulWithin_ofRat _ _ 4, fun hneg => ?_, fun _ => ?_⟩
  · exact absurd hneg (by with_unfolding_all decide)
  · rw [value_ofRat]
    norm_num

/-- The conjugate of the cube root of `1 + π` plus `2i`, and the modulus of `3 + 4i`. -/
theorem splitComplex?_cubeRootPlusUnit :
    (∃ c, cubeRootPlusUnit.conjugate? = some c ∧ c.value unitValuation =
      starRingEnd ℂ (cubeRootPlusUnit.value unitValuation)) ∧
    (ofRat 5).value unitValuation =
      (‖(add (ofRat 3) (imaginaryUnit.scale 4)).value unitValuation‖ : ℂ) := by
  have hclosed := closed_everywhere (settles_oddRadicandNonneg unitValuation)
  constructor
  · have hmade : cubeRootPlusUnit.Constructible :=
      .add (.radical (.add (.ofRat 1) (.ofAtom .pi)) 3) (.scale .imaginaryUnit 2)
    have hsplit : cubeRootPlusUnit.splitComplex? = some (radical onePlusPi 3, ofRat 2) := by
      decide +kernel
    obtain ⟨-, -, ⟨c, hc, -, hvalue⟩, -⟩ :=
      (splitComplex?_spec hmade hsplit {} []).2 everywhere_cubeRootPlusUnit
    exact ⟨c, hc, hvalue (.inr (monomialsIn_ofRat Monomial.reduced_one 2))⟩
  · have hsplit : (add (ofRat 3) (imaginaryUnit.scale 4)).splitComplex? =
        some (ofRat 3, ofRat 4) := by decide +kernel
    have habsolute : (add (ofRat 3) (imaginaryUnit.scale 4)).absolute? {} = some (ofRat 5) := by
      decide +kernel
    have hodd := everywhere_iff.2 ((monomialsIn_ofRat hclosed.one 3).add
      ((monomialsIn_ofAtom hclosed (a := .imaginaryUnit) ⟨trivial, fun _ h => by cases h⟩).scale 4))
    obtain ⟨-, -, -, hvalue⟩ :=
      (splitComplex?_spec (.add (.ofRat 3) (.scale .imaginaryUnit 4)) hsplit {} []).2 hodd
    exact hvalue _ (congrArg Except.ok habsolute) absoluteWithin_three_add_four_unit

/-- The fifth root of `-2` is a radical whose value is not real.  It counts as known to be real, so it
is its own real part and its own conjugate. -/
theorem exists_splitComplex?_not_real :
    ∃ f, root { complexFormat := .cartesian } (ofRat (-2)) 5 = .ok f ∧
      f.splitComplex? = some (f, zero) ∧ f.conjugate? = some f ∧
      ∀ x functions, (f.value (Valuation.principal x functions)).im ≠ 0 := by
  refine ⟨radical (ofRat (-2)) 5, by decide +kernel, by decide +kernel, by decide +kernel,
    fun x functions him => ?_⟩
  have hvalue : (ofRat (-2)).value (Atom.principal x functions) = ((-2 : ℝ) : ℂ) := by
    rw [value_ofRat]
    push_cast
    rfl
  rw [value_radical (by decide)] at him
  have hnonneg := (Atom.im_principal_radical_eq_zero_iff (by decide)
    (by rw [hvalue, Complex.ofReal_im])).1 him
  rw [hvalue, Complex.ofReal_re] at hnonneg
  norm_num at hnonneg

end Form

end Resolvent

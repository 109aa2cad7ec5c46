import Resolvent.Proofs.Form.PrincipalPower

/-!
# Roots and powers of forms on their branches

A root of a form has the value that evaluation gives the root of its value exactly if the form is on
the branch that evaluation takes (`Form.evaluatedRoot_eq_iff`): it may be no principal root of a
negative number under the real format, and no multiple of the root of the opposite by the imaginary
unit unless that is the principal root.  A power is the root of a whole power of its base, and is on
its branch if both are (`Form.evaluatedPower_eq`).  The index of a root may be a form too
(`Form.evaluatedRootBy_eq_of_rootBy`).
-/

namespace Resolvent

open scoped Real ComplexOrder

namespace Form

variable (x : Nat → ℂ) (functions : Builtin → List ℂ → ℂ) {p : Preferences} {format : ComplexFormat}
  {f r : Form} {n : Nat}

/-! ### Roots of forms -/

/-- The root of a multiple of a power by a positive number. -/
theorem exactRoot_mul_pow {a c : ℝ} (hc : 0 < c) (hn : 1 ≤ n) :
    exactRoot format (a * c ^ n) n = (exactRoot format a n).map (· * (c : ℂ)) := by
  have hpos : 0 < c ^ n := pow_pos hc n
  have hroot : ∀ {b : ℝ}, 0 ≤ b → (b * c ^ n) ^ (n : ℝ)⁻¹ = b ^ (n : ℝ)⁻¹ * c := fun hb => by
    rw [Real.mul_rpow hb hpos.le, Real.pow_rpow_inv_natCast hc.le (by omega)]
  have hexponent : (n : ℂ)⁻¹ = ((n : ℝ)⁻¹ : ℝ) := by push_cast; rfl
  have hneg : a * c ^ n < 0 ↔ a < 0 :=
    ⟨fun h => neg_of_mul_neg_left h hpos.le, fun h => mul_neg_of_neg_of_pos h hpos⟩
  rcases lt_or_ge a 0 with ha | ha
  · have hopposite := hroot (neg_pos.2 ha).le
    rw [neg_mul] at hopposite
    by_cases hformat : format = .real
    · have hleft : a * c ^ n < 0 ∧ format = .real := ⟨hneg.2 ha, hformat⟩
      have hright : a < 0 ∧ format = .real := ⟨ha, hformat⟩
      rw [exactRoot, exactRoot, if_pos hleft, if_pos hright, hopposite]
      split
      · rw [Option.map_some, neg_mul_eq_neg_mul, Complex.ofReal_mul]
      · rfl
    · rw [exactRoot, exactRoot, if_neg fun h => hformat h.2, if_neg fun h => hformat h.2,
        hexponent, cpow_of_neg (hneg.2 ha), cpow_of_neg ha, hopposite, Option.map_some]
      push_cast
      ring_nf
  · rw [exactRoot, exactRoot, if_neg fun h => not_lt.2 ha (hneg.1 h.1),
      if_neg fun h => not_lt.2 ha h.1,
      hexponent, ← Complex.ofReal_cpow (mul_nonneg ha hpos.le), ← Complex.ofReal_cpow ha, hroot ha,
      Option.map_some, Complex.ofReal_mul]

/-- Powers of the circle number and Euler's number are positive. -/
theorem exists_factorsValue_of_isRealConstant {factors : List (Atom × Int)}
    (h : ∀ y ∈ factors, y.1.IsRealConstant) : ∃ c : ℝ, 0 < c ∧
      Monomial.factorsValue (Valuation.principal x functions) factors = c := by
  induction factors with
  | nil => exact ⟨1, one_pos, by rw [Monomial.factorsValue_nil, Complex.ofReal_one]⟩
  | cons y factors ih =>
    obtain ⟨c, hc, hvalue⟩ := ih fun z hz => h z (List.mem_cons_of_mem _ hz)
    obtain ⟨a, k⟩ := y
    have hpositive := Valuation.isPositive_principal x functions
    rcases h _ List.mem_cons_self with rfl | rfl
    · refine ⟨π ^ k * c, mul_pos (zpow_pos Real.pi_pos k) hc, ?_⟩
      rw [Monomial.factorsValue_cons, hvalue, hpositive.pi]
      push_cast
      rfl
    · refine ⟨Real.exp 1 ^ k * c, mul_pos (zpow_pos (Real.exp_pos 1) k) hc, ?_⟩
      rw [Monomial.factorsValue_cons, hvalue, hpositive.e]
      push_cast
      rfl

/-- The square root of `a + bi` with a rational modulus is the principal one. -/
theorem value_squareRootOfSum?_principal {a b : Rat} (hb : b ≠ 0)
    (h : squareRootOfSum? a b = some r) :
    r.value (Valuation.principal x functions) =
      (a + b * Complex.I : ℂ) ^ ((2 : ℕ) : ℂ)⁻¹ := by
  have hadmits : (Valuation.principal x functions).AdmitsSquareRootOfSum a b := by
    intro modulus hmodulus
    obtain ⟨hre, him⟩ := pos_parts_of_toRat?_positiveRoot hb hmodulus
    exact ⟨agreesAt_principal x functions hre 2, agreesAt_principal x functions him 2⟩
  have hsquare := value_squareRootOfSum? hb hadmits h
  have hpos : 0 < (r.value (Valuation.principal x functions)).re := by
    unfold squareRootOfSum? at h
    split at h
    · cases h
    · next modulus hmodulus =>
      obtain ⟨hre, him⟩ := pos_parts_of_toRat?_positiveRoot hb hmodulus
      have hmonomials := monomialsIn_positiveRoot him le_rfl
        (admitsPositiveRoot_of_agreesAt him le_rfl (hadmits modulus hmodulus).2)
      have hreal := value_positiveRoot_principal x functions hre le_rfl
      have himaginary := value_positiveRoot_principal x functions him le_rfl
      have hunit : (mul (if b < 0 then neg (positiveRoot ((modulus - a) * (1 / 2)) 2)
          else positiveRoot ((modulus - a) * (1 / 2)) 2) imaginaryUnit).value
            (Valuation.principal x functions) =
          (((if b < 0 then -1 else 1) *
            (((modulus - a) * (1 / 2) : Rat) : ℝ) ^ ((2 : ℕ) : ℝ)⁻¹ : ℝ) : ℂ) * Complex.I := by
        split
        · rw [value_mul_imaginaryUnit hmonomials.neg, value_neg, himaginary,
            principal_imaginaryUnit_eq_I]
          push_cast
          ring
        · rw [value_mul_imaginaryUnit hmonomials, himaginary, principal_imaginaryUnit_eq_I]
          push_cast
          ring
      cases h
      rw [value_add, hunit, hreal, Complex.add_re, Complex.ofReal_re, Complex.re_ofReal_mul,
        Complex.I_re, mul_zero, AddMonoid.add_zero]
      exact Real.rpow_pos_of_pos (Rat.cast_pos.2 hre) _
  rw [principal_imaginaryUnit_eq_I] at hsquare
  rw [← hsquare, Nat.cast_ofNat, Complex.sq_cpow_two_inv hpos]

/-- The root of the form is on the branch that evaluation takes.  Where it has no simpler value it
has to be the principal root, which is not taken of a negative number under the real format and is
written with the root of the opposite above the real line or left of zero only. -/
def RootAgrees (v : Valuation ℂ) (p : Preferences) (f r : Form) (n : Nat) : Prop :=
  NoExactRoot p f n → (p.complexFormat = .real → ¬ f.value v < 0) ∧
    (r ≠ radical f n → 0 < (f.value v).im ∨ f.value v ≤ 0)

/-- Under the real format no root is written with the root of the opposite. -/
theorem format_ne_real_of_generalRoot (h : generalRoot p f n = .ok r) (hne : r ≠ radical f n) :
    p.complexFormat ≠ .real := by
  intro hreal
  rw [generalRoot, hreal] at h
  dsimp only at h
  split at h
  · exact hne (Except.ok.inj h).symm
  · split at h
    · cases h
    · split at h
      · cases h
      · exact hne (Except.ok.inj h).symm

theorem value_radical_principal (hn : 2 ≤ n) :
    (radical f n).value (Valuation.principal x functions) =
      f.value (Valuation.principal x functions) ^ (n : ℂ)⁻¹ := by
  rw [value_radical hn]
  exact Atom.principal_radical x functions f n

/-- A root without a simpler value has the value that evaluation gives it exactly if it is on the
same branch. -/
theorem evaluatedRoot_eq_iff_of_noExactRoot (hn : 2 ≤ n) (hexact : NoExactRoot p f n)
    (h : root p f n = .ok r) :
    evaluatedRoot p.complexFormat (f.value (Valuation.principal x functions)) n =
        some (r.value (Valuation.principal x functions)) ↔
      RootAgrees (Valuation.principal x functions) p f r n := by
  rw [hexact.root_eq hn] at h
  rw [RootAgrees, forall_prop_of_true hexact]
  by_cases hplain : r = radical f n
  · rw [hplain, value_radical_principal x functions hn, evaluatedRoot_eq_cpow_iff hn]
    exact (and_iff_left fun hne => absurd rfl hne).symm
  · obtain ⟨rfl, hr, -⟩ := generalRoot_neg h hplain
    have hformat := format_ne_real_of_generalRoot h hplain
    have hvalue : r.value (Valuation.principal x functions) =
        (-f.value (Valuation.principal x functions)) ^ ((2 : ℕ) : ℂ)⁻¹ * Complex.I := by
      rw [hr, value_mul_of_reducedIn _ (apart_imaginaryUnit 2) (reducedIn_radical le_rfl rfl)
        reducedIn_imaginaryUnit, value_radical_principal x functions le_rfl, value_neg,
        value_imaginaryUnit, principal_imaginaryUnit_eq_I]
    rw [evaluatedRoot_eq_cpow fun hreal => absurd hreal hformat, Option.some.injEq, eq_comm, hvalue,
      cpow_neg_two_inv_mul_unit_iff]
    exact ⟨fun hbranch => ⟨fun hreal => absurd hreal hformat, fun _ => hbranch⟩, fun hbranch =>
      hbranch.2 hplain⟩

/-- The root of a power of constants has the value that evaluation gives it. -/
theorem evaluatedRoot_eq_of_constantPower? (hf : f.Constructible) (hn : 2 ≤ n)
    (hword : n ≤ 2147483647) {q : Rat} {factors : List (Atom × Int)}
    (hpower : f.constantPower? n = some (q, factors)) (h : rationalRoot format q n = .ok r) :
    evaluatedRoot format (f.value (Valuation.principal x functions)) n =
      some ((mul r (ofFactors 1 factors)).value (Valuation.principal x functions)) := by
  obtain ⟨hvalue, m, hsingle⟩ := value_constantPower? (v := Valuation.principal x functions) hword
    hpower
  obtain ⟨l, -, hfactors, hconstants⟩ := constantPower?_eq_some hpower
  have hreal : ∀ y ∈ factors, y.1.IsRealConstant := by
    intro y hy
    rw [hfactors] at hy
    obtain ⟨z, hz, rfl⟩ := List.mem_map.1 hy
    exact (hconstants z hz).1
  obtain ⟨c, hc, hproduct⟩ := exists_factorsValue_of_isRealConstant x functions hreal
  have hq : q ≠ 0 := (hf.noZeros (m, q) (by simp [terms_of_singleTerm? hsingle])).1
  have hcast : (q : ℂ) * (c : ℂ) ^ n = (((q : ℝ) * c ^ n : ℝ) : ℂ) := by push_cast; rfl
  rw [value_mul_constants _ hf.stored hn hpower h, hvalue, hproduct, hcast, evaluatedRoot_ofReal,
    exactRoot_mul_pow hc (by omega), exactRoot_eq_of_rationalRoot x functions hq hn h]
  rfl

theorem evaluatedRoot_eq_of_otherRoot (hf : f.Constructible) (hn : 2 ≤ n) (hword : n ≤ 2147483647)
    (hpower : f.constantPower? n ≠ none) (h : otherRoot p f n = .ok r) :
    evaluatedRoot p.complexFormat (f.value (Valuation.principal x functions)) n =
      some (r.value (Valuation.principal x functions)) := by
  unfold otherRoot at h
  split at h
  · next q factors hsome =>
    obtain ⟨s, hs, rfl⟩ := Except.map_eq_ok_iff.1 h
    exact evaluatedRoot_eq_of_constantPower? x functions hf hn hword hsome hs
  · next hnone => exact absurd hnone hpower

/-- The root of a number that is not rational and has a simpler root has the value that evaluation
gives it. -/
theorem evaluatedRoot_eq_of_irrationalRoot (hf : f.Constructible) (hn : 2 ≤ n)
    (hword : n ≤ 2147483647) (hzero : f.isZero = false) (hirrational : f.toRat? = none)
    (hexact : ¬ NoExactRoot p f n) (h : irrationalRoot p f n = .ok r) :
    evaluatedRoot p.complexFormat (f.value (Valuation.principal x functions)) n =
      some (r.value (Valuation.principal x functions)) := by
  unfold irrationalRoot at h
  split at h
  · next hparts =>
    refine evaluatedRoot_eq_of_otherRoot x functions hf hn hword (fun hpower => ?_) h
    refine hexact ⟨hzero, hirrational, ?_, hpower⟩
    intro a b htwo hsome
    rw [if_pos htwo, hsome] at hparts
    cases hparts
  · next a b hparts =>
    obtain ⟨rfl, hparts⟩ := Option.ite_none_right_eq_some.1 hparts
    split at h
    · cases h
    · next hformat =>
      split at h
      · next hsum =>
        cases h
        obtain ⟨hb, hvalue⟩ := value_of_gaussianParts? (v := Valuation.principal x functions)
          hf.stored.unitReduced hparts
        rw [evaluatedRoot_eq_cpow fun hreal => absurd hreal hformat, hvalue,
          principal_imaginaryUnit_eq_I, value_squareRootOfSum?_principal x functions hb hsum]
      · next hsum =>
        refine evaluatedRoot_eq_of_otherRoot x functions hf hn hword (fun hpower => ?_) h
        refine hexact ⟨hzero, hirrational, ?_, hpower⟩
        intro c d _ hsome
        cases hparts.symm.trans hsome
        exact ⟨hformat, hsum⟩

/-- A root with a simpler value has the value that evaluation gives it. -/
theorem evaluatedRoot_eq_of_exactRoot (hf : f.Constructible) (hn : 1 ≤ n) (hword : n ≤ 2147483647)
    (hexact : 2 ≤ n → ¬ NoExactRoot p f n) (h : root p f n = .ok r) :
    evaluatedRoot p.complexFormat (f.value (Valuation.principal x functions)) n =
      some (r.value (Valuation.principal x functions)) := by
  unfold root at h
  split at h
  · next hplain =>
    cases h
    rcases Bool.or_eq_true_iff.1 hplain with hone | hzero
    · obtain rfl : n = 1 := le_antisymm (of_decide_eq_true hone) hn
      exact evaluatedRoot_one _ _
    · rw [isZero_iff.1 hzero, value_zero, evaluatedRoot_eq_cpow fun _ => lt_irrefl 0,
        Complex.zero_cpow (inv_ne_zero (Nat.cast_ne_zero.2 (by omega)))]
  · next hplain =>
    simp only [Bool.or_eq_true, decide_eq_true_eq, not_or, not_le] at hplain
    obtain ⟨hn, hzero⟩ := hplain
    split at h
    · next q hq =>
      have hne : q ≠ 0 := ne_zero_of_toRat? hf.noZeros (fun heq => hzero (isZero_iff.2 heq)) hq
      rw [toRat?_eq_some _ hq, ← Complex.ofReal_ratCast, evaluatedRoot_ofReal]
      exact exactRoot_eq_of_rationalRoot x functions hne hn h
    · next hirrational =>
      exact evaluatedRoot_eq_of_irrationalRoot x functions hf hn hword (Bool.eq_false_iff.2 hzero)
        hirrational (hexact hn) h

/-- **Roots, read twice**: the form of a root has the value that evaluation gives the root exactly
if it is on the branch that evaluation takes. -/
theorem evaluatedRoot_eq_iff (hf : f.Constructible) (hn : 2 ≤ n) (hword : n ≤ 2147483647)
    (h : root p f n = .ok r) :
    evaluatedRoot p.complexFormat (f.value (Valuation.principal x functions)) n =
        some (r.value (Valuation.principal x functions)) ↔
      RootAgrees (Valuation.principal x functions) p f r n := by
  by_cases hexact : NoExactRoot p f n
  · exact evaluatedRoot_eq_iff_of_noExactRoot x functions hn hexact h
  · exact iff_of_true (evaluatedRoot_eq_of_exactRoot x functions hf (by omega) hword
      (fun _ => hexact) h) fun hno => absurd hno hexact

/-! ### Powers of forms -/

variable {g : Form} {q : Rat}

theorem value_of_rootIndex? {K : Type*} [Field K] [CharZero K] (v : Atom → K)
    (h : g.rootIndex? = some n) : 1 ≤ n ∧ n ≤ maxRootIndex ∧ g.value v = n := by
  unfold rootIndex? at h
  split at h
  · next m hm =>
    obtain ⟨hn, heq⟩ := Option.ite_none_right_eq_some.1 h
    cases heq
    obtain ⟨q, hq, hm⟩ := Option.bind_eq_some_iff.1 hm
    obtain ⟨hden, hnum⟩ := Rational.toInteger?_eq_some_iff.1 hm
    refine ⟨hn.1, hn.2, ?_⟩
    rw [toRat?_eq_some v hq, Rat.cast_def, hden, hnum, Nat.cast_one, div_one]
    simp
  · cases h

/-- The power of the form with a rational exponent is on the branch that evaluation takes. -/
structure RationalPowerAgrees (v : Valuation ℂ) (p : Preferences) (f : Form) (q : Rat) : Prop where
  /-- What is multiplied out is admitted. -/
  admits : q.den ≤ maxRootIndex → v.AdmitsPow f q.num
  /-- Zero is not inverted. -/
  ne_zero : q < 0 → f.value v ≠ 0
  /-- Under the real format, negative numbers have powers with small whole exponents only. -/
  whole : p.complexFormat = .real → f.value v < 0 → q.den = 1 ∧ q.num.natAbs ≤ 2147483647
  /-- The root of a power that is multiplied out is on the branch that evaluation takes. -/
  root : IsExpandedRoot q → ∀ g r, f.pow? q.num = some g → root p g q.den = .ok r →
    (p.complexFormat = .real → ¬ g.value v < 0) ∧ RootAgrees v p g r q.den
  /-- The root of the power is the power with the fraction as its exponent. -/
  turns : IsExpandedRoot q →
    ∃ m : ℤ, q.num * (f.value v).arg - 2 * π * (q.den * m) ∈ Set.Ioc (-π) π

/-- The power of two forms is on the branch that evaluation takes. -/
def PowerAgrees (v : Valuation ℂ) (p : Preferences) (f g : Form) : Prop :=
  match g.toRat? with
  | none => f.value v ≠ 0 ∧ (p.complexFormat = .real → ¬ f.value v < 0)
  | some q =>
    match f.toRat? with
    | some a => PowersAgree p.complexFormat a q
    | none => RationalPowerAgrees v p f q

/-- The root of a form with another form as its index is on the branch that evaluation takes. -/
def RootByAgrees (v : Valuation ℂ) (p : Preferences) (f g : Form) : Prop :=
  match g.rootIndex? with
  | some n => ∀ r, root p f n = .ok r → 2 ≤ n → RootAgrees v p f r n
  | none => ∀ i, g.inverse? = some i → v.AdmitsInverse g ∧ PowerAgrees v p f i

/-- The root of a power is the power with a fraction as its exponent where it is on one branch. -/
theorem evaluatedPower_eq_evaluatedRoot {z : ℂ} (hq : 2 ≤ q.den) (hz : q < 0 → z ≠ 0)
    (hneg : format = .real → ¬ z < 0) (hpow : format = .real → ¬ z ^ q.num < 0)
    (hturns : ∃ m : ℤ, q.num * z.arg - 2 * π * (q.den * m) ∈ Set.Ioc (-π) π) :
    evaluatedPower format z q = evaluatedRoot format (z ^ q.num) q.den := by
  have hbase := ne_zero_or_nonneg hz
  rw [evaluatedPower_eq_cpow hbase (.inr hneg), evaluatedRoot_eq_cpow hpow]
  rcases eq_or_ne z 0 with rfl | hne
  · have hzero : q ≠ 0 := by
      rintro rfl
      exact absurd hq (by decide)
    rw [Complex.zero_cpow (Rat.cast_ne_zero.2 hzero), zero_zpow _ (Rat.num_ne_zero.2 hzero),
      Complex.zero_cpow (inv_ne_zero (Nat.cast_ne_zero.2 (by omega)))]
  · rw [(zpow_cpow_inv_eq_iff hne q.num (by omega)).2 hturns, ← Rat.cast_def]

theorem value_pow? {k : Int} (hf : f.NoZeros)
    (hadmits : (Valuation.principal x functions).AdmitsPow f k) (h : f.pow? k = some r) :
    r.value (Valuation.principal x functions) = f.value (Valuation.principal x functions) ^ k :=
  ((soundOn_normalize _).value_powWith (fun _ => hf) hadmits h).1

theorem evaluatedPower_eq_of_rationalPower (hf : f.Constructible)
    (hagrees : RationalPowerAgrees (Valuation.principal x functions) p f q)
    (h : rationalPower p f q = .ok r) :
    evaluatedPower p.complexFormat (f.value (Valuation.principal x functions)) q =
      some (r.value (Valuation.principal x functions)) := by
  have hbase := ne_zero_or_nonneg hagrees.ne_zero
  have hprincipal : evaluatedPower p.complexFormat (f.value (Valuation.principal x functions)) q =
      some (f.value (Valuation.principal x functions) ^ (q : ℂ)) := by
    refine evaluatedPower_eq_cpow hbase ?_
    by_cases hsmall : IsSmallWhole q
    · exact .inl hsmall
    · exact .inr fun hreal hneg => hsmall (isSmallWhole_ratCast_iff.2 (hagrees.whole hreal hneg))
  have hkept : (ofAtom (.power f (ofRat q))).value (Valuation.principal x functions) =
      f.value (Valuation.principal x functions) ^ (q : ℂ) := by
    rw [value_ofAtom_power, value_ofRat]
  obtain ⟨k, hk, rfl⟩ | ⟨hlarge, hnum, hden, g, hg, hr⟩ | ⟨-, rfl, -⟩ := rationalPower_inversion h
  · obtain ⟨hden, rfl⟩ := Rational.toInteger?_eq_some_iff.1 (Option.eq_some_of_filter_eq_some hk)
    rw [hprincipal]
    rcases hpow : f.pow? q.num with - | g
    · rw [Option.getD_none, hkept]
    · rw [Option.getD_some,
        value_pow? x functions hf.noZeros (hagrees.admits (hden ▸ by decide)) hpow, Rat.cast_def,
        hden, Nat.cast_one, div_one, Complex.cpow_intCast]
  · have hexpanded := isExpandedRoot_of_toInt64? hlarge ⟨hnum, hden⟩
    have hroot := rootOrUnreal_eq_ok_iff.1 hr
    obtain ⟨hpositive, hbranch⟩ := hagrees.root hexpanded g r hg hroot
    have hg' := value_pow? x functions hf.noZeros (hagrees.admits hden) hg
    have hvalue := (evaluatedRoot_eq_iff x functions (.pow hf hg) hexpanded.two_le_den
      (hden.trans (by decide)) hroot).2 hbranch
    rw [hg'] at hvalue hpositive
    rw [← hvalue]
    exact evaluatedPower_eq_evaluatedRoot hexpanded.two_le_den hagrees.ne_zero
      (fun hreal hneg => hexpanded.1 (hagrees.whole hreal hneg).1) hpositive
      (hagrees.turns hexpanded)
  · rw [hprincipal, hkept]

/-- **Powers, read twice**: the form of a power has the value that evaluation gives the power where
it is on the branch that evaluation takes. -/
theorem evaluatedPower_eq (hf : f.Constructible) (hg : g.Constructible)
    (hagrees : PowerAgrees (Valuation.principal x functions) p f g) (h : power p f g = .ok r) :
    evaluatedPower p.complexFormat (f.value (Valuation.principal x functions))
        (g.value (Valuation.principal x functions)) =
      some (r.value (Valuation.principal x functions)) := by
  unfold PowerAgrees at hagrees
  rcases hg' : g.toRat? with - | q
  · rw [hg'] at hagrees
    obtain ⟨hne, hneg⟩ := hagrees
    rw [power, hg'] at h
    cases h
    rw [evaluatedPower_eq_cpow (.inl hne) (.inr hneg), value_ofAtom_power]
  · rw [hg'] at hagrees
    obtain rfl := eq_ofRat_of_toRat? hg.noZeros hg'
    rw [value_ofRat]
    dsimp only at hagrees
    rcases hf' : f.toRat? with - | a
    · rw [hf'] at hagrees
      have hzero : f.isZero = false := by
        obtain ⟨terms⟩ := f
        cases terms with
        | nil => cases hf'
        | cons t terms => rfl
      rw [power, hg'] at h
      dsimp only at h
      rw [hzero, if_neg Bool.false_ne_true] at h
      exact evaluatedPower_eq_of_rationalPower x functions hf hagrees h
    · rw [hf'] at hagrees
      obtain rfl := eq_ofRat_of_toRat? hf.noZeros hf'
      have hbase : (a : ℝ) ≠ 0 ∨ 0 ≤ q := by
        refine or_iff_not_imp_left.2 fun ha => ?_
        rw [power, hg'] at h
        dsimp only at h
        rw [if_pos (by simpa [isZero_ofRat] using ha)] at h
        split at h
        · next hq => exact hq.le
        · cases h
      rw [value_ofRat, ← Complex.ofReal_ratCast a, evaluatedPower_ratCast hbase]
      exact (exactPower_eq_iff x functions h).2 hagrees

/-- The form of a root with another form as its index has the value that evaluation gives it where
it is on the branch that evaluation takes. -/
theorem evaluatedRootBy_eq_of_rootBy (hf : f.Constructible) (hg : g.Constructible)
    (hagrees : RootByAgrees (Valuation.principal x functions) p f g) (h : rootBy p f g = .ok r) :
    evaluatedRootBy p.complexFormat (f.value (Valuation.principal x functions))
        (g.value (Valuation.principal x functions)) =
      some (r.value (Valuation.principal x functions)) := by
  unfold RootByAgrees at hagrees
  unfold rootBy at h
  rcases hindex : g.rootIndex? with - | n
  · rw [hindex] at hagrees h
    dsimp only at hagrees h
    split at h
    · next i hi =>
      obtain ⟨hadmits, hagrees⟩ := hagrees i hi
      have hinverse := value_mul_inverse? hg.noZeros hadmits hi
      rw [evaluatedRootBy_eq (right_ne_zero_of_mul_eq_one hinverse),
        ← eq_inv_of_mul_eq_one_left hinverse]
      exact evaluatedPower_eq x functions hf (.inverse hg hi) hagrees h
    · cases h
  · rw [hindex] at hagrees h
    have hroot := rootOrUnreal_eq_ok_iff.1 h
    obtain ⟨hlow, hhigh, hvalue⟩ := value_of_rootIndex? (Valuation.principal x functions) hindex
    rw [hvalue, evaluatedRootBy_natCast hlow (hhigh.trans (by decide))]
    rcases hlow.eq_or_lt with hone | htwo
    · subst hone
      exact evaluatedRoot_eq_of_exactRoot x functions hf le_rfl (by decide) (by omega) hroot
    · exact (evaluatedRoot_eq_iff x functions hf htwo (hhigh.trans (by decide)) hroot).2
        (hagrees r hroot htwo)

end Form

end Resolvent

import Resolvent.Proofs.Form.Coefficients
import Resolvent.Proofs.Form.Valuation
import Resolvent.Proofs.Solve.Cubic

/-!
# Polynomial equations

`Form.value_polynomialRoots?` says what the answers to a quadratic or cubic equation are worth: exact
answers are roots of the polynomial, if all answers are exact there are no other roots, and the last
answer is the discriminant.  It holds under valuations that admit what is computed
(`Valuation.AdmitsPolynomial`).  `Form.exists_polynomialRoots?_ne` shows where each of its conditions
is needed: exponents beyond 32 bits, atoms with the value zero and radicals whose signs do not belong
together all spoil the answers.
-/

namespace Resolvent

variable {K : Type*} [Field K] {p : Preferences}

/-- The valuation admits what the roots of a quadratic or cubic polynomial meet, given by its
coefficients, the constant first. -/
def Valuation.AdmitsPolynomial (v : Valuation K) (p : Preferences) : List Form → Prop
  | [c, b, a] => v.AdmitsQuadratic p ⟨a, b, c⟩
  | [d, c, b, a] => v.AdmitsCubic p ⟨a, b, c, d⟩
  | _ => False

namespace Form

/-- The value of a polynomial at a number, given by its coefficients, the constant first. -/
def polynomialValue (v : Atom → K) (ks : List Form) (x : K) : K :=
  ks.foldr (fun k s => k.value v + s * x) 0

/-- The discriminant of a quadratic or cubic polynomial in the values of its coefficients, the
constant first. -/
def discriminantValue (v : Atom → K) : List Form → K
  | [c, b, a] => discrim (a.value v) (b.value v) (c.value v)
  | [d, c, b, a] => CubicRoots.discriminant (a.value v) (b.value v) (c.value v) (d.value v)
  | _ => 0

variable {v : Valuation K} {f : Form} {unknown : Nat}

theorem hasRoot_iff_quadratic (v : Atom → K) (a b c : Form) (x : K) :
    (⟨a, b, c⟩ : Quadratic).HasRoot v x ↔ polynomialValue v [c, b, a] x = 0 := by
  simp only [Quadratic.HasRoot, polynomialValue, List.foldr_cons, List.foldr_nil]
  constructor <;> intro h <;> linear_combination h

theorem hasRoot_iff_cubic (v : Atom → K) (a b c d : Form) (x : K) :
    (⟨a, b, c, d⟩ : Cubic).HasRoot v x ↔ polynomialValue v [d, c, b, a] x = 0 := by
  simp only [Cubic.HasRoot, polynomialValue, List.foldr_cons, List.foldr_nil]
  constructor <;> intro h <;> linear_combination h

theorem polynomialRoots?_of_quadratic {a b c : Form}
    (h : f.polynomial? unknown maxExactDegree = some [c, b, a]) (p : Preferences) :
    f.polynomialRoots? p unknown = some
      { degree := 2
        answers := Answer.listed p ((⟨a, b, c⟩ : Quadratic).roots p) ++
          [.exact (⟨a, b, c⟩ : Quadratic).discriminant] } := by
  rw [polynomialRoots?, h]

variable [CharZero K]

/-- **Exact roots are the roots.**  The exact answers to a quadratic or cubic equation are roots of
its polynomial, whatever way they were found; if all answers are exact, each root is the value of
one; and the answer behind them is the discriminant. -/
theorem value_polynomialRoots? (hf : f.UnitReduced) {ks : List Form}
    (hks : f.polynomial? unknown maxExactDegree = some ks)
    (hleading : ∀ a ∈ ks.getLast?, a.value v ≠ 0) (h : v.AdmitsPolynomial p ks) :
    ∃ (answers : List Answer) (delta : Form),
      f.polynomialRoots? p unknown =
        some { degree := (ks.length : Int) - 1, answers := answers ++ [.exact delta] } ∧
      (∀ r, .exact r ∈ answers → polynomialValue v ks (r.value v) = 0) ∧
      ((∀ a ∈ answers, ∃ r, a = .exact r) →
        ∀ x, polynomialValue v ks x = 0 → ∃ r, .exact r ∈ answers ∧ r.value v = x) ∧
      delta.value v = discriminantValue v ks := by
  have hreduced : ∀ k ∈ ks, k.UnitReduced := fun k hk => hf.polynomial hks hk
  have hnoZeros : ∀ k ∈ ks, k.NoZeros := fun k hk => noZeros_of_mem_polynomial? hks hk
  unfold Valuation.AdmitsPolynomial at h
  split at h
  · next c b a =>
    have hq : (⟨a, b, c⟩ : Quadratic).Reduced :=
      ⟨hreduced a (by simp), hreduced b (by simp), hreduced c (by simp), hnoZeros a (by simp)⟩
    have ha : a ≠ zero := by
      obtain ⟨k, hk, hne⟩ := getLast_polynomial?_ne_zero hks (by simp)
      cases hk
      exact hne
    have hsolve := (Quadratic.solve_roots hq h).listed
      (.inl fun _ hx => Quadratic.not_isApproximate_of_mem_roots ha hx) p
    refine ⟨_, _, by rw [polynomialRoots?, hks]; rfl, fun r hr => ?_, fun hexact x hx => ?_, ?_⟩
    · exact (hasRoot_iff_quadratic v a b c _).1 (hsolve.sound hr)
    · exact hsolve.complete hexact x ((hasRoot_iff_quadratic v a b c x).2 hx)
    · exact Quadratic.value_discriminant h.1
  · next d c b a =>
    have ha : a ≠ zero := by
      obtain ⟨k, hk, hne⟩ := getLast_polynomial?_ne_zero hks (by simp)
      cases hk
      exact hne
    have hq : (⟨a, b, c, d⟩ : Cubic).Reduced :=
      ⟨hreduced a (by simp), hreduced b (by simp), hreduced c (by simp), hreduced d (by simp),
        hnoZeros a (by simp), ha⟩
    obtain ⟨hsolve, hunmixed⟩ := Cubic.solve_roots hq (hleading a rfl) h
    have hsolve := hsolve.listed hunmixed p
    refine ⟨_, _, by rw [polynomialRoots?, hks]; rfl, fun r hr => ?_, fun hexact x hx => ?_, ?_⟩
    · exact (hasRoot_iff_cubic v a b c d _).1 (hsolve.sound hr)
    · exact hsolve.complete hexact x ((hasRoot_iff_cubic v a b c d x).2 hx)
    · exact Cubic.value_discriminant h.1
  · exact h.elim

/-! ### The equation `x³ - sx = 0` -/

/-- The polynomial `x³ - sx` in the second symbol, with the first one for `s`. -/
def cubeMinusMultiple : Form :=
  sub (mul (symbol 1) (mul (symbol 1) (symbol 1))) (mul (symbol 0) (symbol 1))

theorem unitReduced_cubeMinusMultiple : cubeMinusMultiple.UnitReduced := by
  have hsymbol : ∀ i, (symbol i).UnitReduced := fun i => unitReduced_ofAtom (.symbol i)
  exact ((hsymbol 1).mul ((hsymbol 1).mul (hsymbol 1))).sub ((hsymbol 0).mul (hsymbol 1))

theorem polynomial?_cubeMinusMultiple : cubeMinusMultiple.polynomial? 1 maxExactDegree =
    some [ofRat 0, neg firstSymbol, ofRat 0, ofRat 1] := by with_unfolding_all rfl

theorem value_firstSymbol : firstSymbol.value unitValuation = 1 := by
  simp [firstSymbol, value, termsValue, Monomial.value, Monomial.factorsValue,
    unitValuation_symbol]

theorem admitsMul_power_firstSymbol {q r : Rat} {j k : Int} (hfits : Width.isInt32 (j + k) = true) :
    unitValuation.AdmitsMul ⟨[(⟨[(.symbol 0, j)]⟩, q)]⟩ ⟨[(⟨[(.symbol 0, k)]⟩, r)]⟩ := by
  intro s hs t ht _ _
  obtain rfl := List.mem_singleton.1 hs
  obtain rfl := List.mem_singleton.1 ht
  refine normalizeWithin_unitValuation (by simp) (fun x hx => ?_) _ _
  obtain ⟨-, hsum⟩ := Monomial.mem_collectFactors.1 hx
  obtain ⟨l, hl⟩ := Monomial.exists_of_mem_collectFactors hx
  obtain ⟨a, m⟩ := x
  obtain rfl : a = .symbol 0 := by
    simp only [List.cons_append, List.nil_append, List.mem_cons, Prod.mk.injEq,
      List.not_mem_nil, or_false] at hl
    exact hl.elim And.left And.left
  have hm : j + k = m := by simpa [Monomial.exponentSum] using hsum
  exact ⟨hm ▸ hfits, fun h => absurd rfl h⟩

theorem admitsQuadratic_firstSymbol (p : Preferences) :
    unitValuation.AdmitsQuadratic p ⟨ofRat 1, ofRat 0, neg firstSymbol⟩ := by
  have hdiscriminant : (⟨ofRat 1, ofRat 0, neg firstSymbol⟩ : Quadratic).discriminant =
      firstSymbol.scale 4 := by with_unfolding_all rfl
  have hinverse : ((ofRat 1).scale 2).inverse? = some (ofRat (1 / 2)) := by with_unfolding_all rfl
  refine ⟨⟨mulWithin_ofRat _ _ _, ofRat_mulWithin _ _ _⟩, .inr ?_, fun i hi => ?_⟩
  · exact normalizeWithin_unitValuation (by simp [Monomial.scaleExponents, Monomial.one])
      (by with_unfolding_all decide) _ _
  · obtain rfl := Option.some.inj (hi.symm.trans hinverse)
    rw [hdiscriminant, if_neg (by with_unfolding_all decide)]
    refine ⟨?_, fun r _ => ⟨mulWithin_ofRat _ _ _, mulWithin_ofRat _ _ _⟩⟩
    have hrat : (firstSymbol.scale 4).toRat? = none := rfl
    have hparts : (firstSymbol.scale 4).gaussianParts? = none := by with_unfolding_all rfl
    have hpower : (firstSymbol.scale 4).constantPower? 2 = none := rfl
    simp only [Valuation.AdmitsRoot, hrat, Valuation.AdmitsIrrationalRoot, if_true, hparts,
      Valuation.AdmitsOtherRoot, hpower]
    refine ⟨fun _ => ?_, fun _ => ?_⟩ <;> refine Valuation.lawful_principal_radical _ _ le_rfl ?_
    · change (firstSymbol.scale 4).value unitValuation ≠ 0
      rw [value_scale, value_firstSymbol]
      norm_num
    · change (neg (firstSymbol.scale 4)).value unitValuation ≠ 0
      rw [value_neg, value_scale, value_firstSymbol]
      norm_num

theorem admitsPolynomial_cubeMinusMultiple (p : Preferences) :
    unitValuation.AdmitsPolynomial p [ofRat 0, neg firstSymbol, ofRat 0, ofRat 1] := by
  have hcc : mul (neg firstSymbol) (neg firstSymbol) = ⟨[(⟨[(.symbol 0, 2)]⟩, 1)]⟩ := by
    with_unfolding_all rfl
  have hac : mul (ofRat 1) (neg firstSymbol) = ⟨[(⟨[(.symbol 0, 1)]⟩, -1)]⟩ := by
    with_unfolding_all rfl
  have hzero : mul (ofRat 0) (neg firstSymbol) = ofRat 0 ∧ mul (ofRat 1) (ofRat 0) = ofRat 0 ∧
      mul (ofRat 0) (ofRat 0) = ofRat 0 := by with_unfolding_all decide
  have hsquare : unitValuation.AdmitsMul (neg firstSymbol) (neg firstSymbol) :=
    admitsMul_power_firstSymbol (by decide)
  have hcube : unitValuation.AdmitsMul ⟨[(⟨[(.symbol 0, 1)]⟩, -1)]⟩ ⟨[(⟨[(.symbol 0, 2)]⟩, 1)]⟩ :=
    admitsMul_power_firstSymbol (by decide)
  have hsimple : (⟨ofRat 1, ofRat 0, neg firstSymbol, ofRat 0⟩ : Cubic).simpleRoot? =
      some (ofRat 0) := rfl
  have hlinear : add (ofRat 0) (mul (ofRat 1) (ofRat 0)) = ofRat 0 := rfl
  refine ⟨?_, ?_⟩
  · simp only [Valuation.AdmitsCubicDiscriminant, hzero, hcc, hac]
    exact ⟨ofRat_mulWithin _ _ _, ofRat_mulWithin _ _ _, ofRat_mulWithin _ _ _,
      ofRat_mulWithin _ _ _, ofRat_mulWithin _ _ _, ofRat_mulWithin _ _ _, hsquare, hcube,
      ofRat_mulWithin _ _ _, ofRat_mulWithin _ _ _, ofRat_mulWithin _ _ _⟩
  · rw [if_neg (by with_unfolding_all decide)]
    simp only [hsimple]
    refine ⟨?_, ⟨mulWithin_ofRat _ _ _, fun h => absurd h (by with_unfolding_all decide),
      fun k hk => ?_⟩⟩
    · exact ⟨mulWithin_ofRat _ _ _, mulWithin_ofRat _ _ _, mulWithin_ofRat _ _ _,
        mulWithin_ofRat _ _ _, trivial⟩
    · obtain rfl := Option.some.inj hk
      rw [hlinear]
      exact admitsQuadratic_firstSymbol p

/-- The equation `x³ - sx = 0` with the value one for `s`: its discriminant is four. -/
theorem value_polynomialRoots?_cubeMinusMultiple :
    cubeMinusMultiple.UnitReduced ∧
      cubeMinusMultiple.polynomial? 1 maxExactDegree =
        some [ofRat 0, neg firstSymbol, ofRat 0, ofRat 1] ∧
      (ofRat 1).value unitValuation ≠ 0 ∧
      unitValuation.AdmitsPolynomial {} [ofRat 0, neg firstSymbol, ofRat 0, ofRat 1] ∧
      ∃ (answers : List Answer) (delta : Form),
        cubeMinusMultiple.polynomialRoots? {} 1 =
          some { degree := 3, answers := answers ++ [.exact delta] } ∧
        (∀ r, .exact r ∈ answers →
          polynomialValue unitValuation [ofRat 0, neg firstSymbol, ofRat 0, ofRat 1]
            (r.value unitValuation) = 0) ∧
        delta.value unitValuation = 4 := by
  have hleading : (ofRat 1).value unitValuation ≠ 0 := by
    rw [value_ofRat]
    norm_num
  have hadmits := admitsPolynomial_cubeMinusMultiple {}
  refine ⟨unitReduced_cubeMinusMultiple, polynomial?_cubeMinusMultiple, hleading, hadmits, ?_⟩
  obtain ⟨answers, delta, hroots, hexact, -, hdelta⟩ :=
    value_polynomialRoots? (v := unitValuation) unitReduced_cubeMinusMultiple
      polynomial?_cubeMinusMultiple (fun a ha => by cases ha; exact hleading) hadmits
  refine ⟨answers, delta, hroots, hexact, ?_⟩
  rw [hdelta, discriminantValue, CubicRoots.discriminant]
  simp only [value_ofRat, value_neg, value_firstSymbol]
  norm_num

/-! ### Exponents beyond 32 bits -/

/-- A power of the circle number. -/
def powerOfPi (k : Int) : Form := ⟨[(⟨[(.pi, k)]⟩, 1)]⟩

/-- The polynomial `x² + 2π^(2^30)x + π^(2^31 - 1)` in the first symbol. -/
def hugePowers : Form :=
  ⟨[(⟨[(.symbol 0, 1), (.pi, 1073741824)]⟩, 2), (⟨[(.symbol 0, 2)]⟩, 1),
    (⟨[(.pi, 2147483647)]⟩, 1)]⟩

theorem listed_singleton (p : Preferences) (a : Answer) : Answer.listed p [a] = [a] := by
  simp [Answer.listed, Answer.distinct]

/-- The square of the second coefficient is too large a power, so the discriminant seems to be
zero. -/
theorem polynomialRoots?_hugePowers (p : Preferences) :
    hugePowers.polynomial? 0 maxExactDegree =
        some [powerOfPi 2147483647, (powerOfPi 1073741824).scale 2, one] ∧
      hugePowers.polynomialRoots? p 0 =
        some { degree := 2, answers := [.exact (neg (powerOfPi 1073741824)), .exact zero] } := by
  have hpolynomial : hugePowers.polynomial? 0 maxExactDegree =
      some [powerOfPi 2147483647, (powerOfPi 1073741824).scale 2, one] := by with_unfolding_all rfl
  have hinverse : (one.scale 2).inverse? = some (ofRat (1 / 2)) := by with_unfolding_all rfl
  have hdiscriminant : (⟨one, (powerOfPi 1073741824).scale 2, powerOfPi 2147483647⟩ :
      Quadratic).discriminant = zero := by with_unfolding_all rfl
  have hroot : mul (neg ((powerOfPi 1073741824).scale 2)) (ofRat (1 / 2)) =
      neg (powerOfPi 1073741824) := by with_unfolding_all rfl
  refine ⟨hpolynomial, ?_⟩
  rw [polynomialRoots?_of_quadratic hpolynomial, Quadratic.roots, hinverse]
  dsimp only
  rw [Quadratic.rootsWith, hdiscriminant, if_pos (by rfl), hroot, listed_singleton]
  rfl

theorem value_powerOfPi (k : Int) : (powerOfPi k).value unitValuation = (Real.pi : ℂ) ^ k := by
  have hpi : unitValuation .pi = (Real.pi : ℂ) := by
    change Atom.principal _ _ _ = _
    rw [Atom.principal]
  simp [powerOfPi, value, termsValue_cons, termsValue_nil, Monomial.value,
    Monomial.factorsValue_cons, Monomial.factorsValue_nil, hpi]

/-- The answer is no root, and the discriminant is not zero. -/
theorem value_hugePowers :
    polynomialValue unitValuation [powerOfPi 2147483647, (powerOfPi 1073741824).scale 2, one]
        ((neg (powerOfPi 1073741824)).value unitValuation) ≠ 0 ∧
      discriminantValue unitValuation
        [powerOfPi 2147483647, (powerOfPi 1073741824).scale 2, one] ≠ 0 := by
  have hne : (Real.pi : ℂ) ≠ 0 := Complex.ofReal_ne_zero.2 Real.pi_ne_zero
  have hone : (Real.pi : ℂ) ≠ 1 := by
    rw [Ne, Complex.ofReal_eq_one]
    exact (one_lt_two.trans_le Real.two_le_pi).ne'
  have hsq : ((Real.pi : ℂ) ^ (1073741824 : Int)) ^ 2 =
      (Real.pi : ℂ) ^ (2147483647 : Int) * Real.pi := by
    rw [← zpow_natCast, ← zpow_mul, ← zpow_add_one₀ hne]
    rfl
  have hproduct : (Real.pi : ℂ) ^ (2147483647 : Int) * (Real.pi - 1) ≠ 0 :=
    mul_ne_zero (zpow_ne_zero _ hne) (sub_ne_zero.2 hone)
  simp only [polynomialValue, discriminantValue, discrim, List.foldr_cons, List.foldr_nil, value_neg,
    value_scale, value_one, value_powerOfPi]
  -- from here on the powers are any numbers, as nothing may compute them
  generalize (Real.pi : ℂ) ^ (1073741824 : Int) = y at hsq ⊢
  generalize (Real.pi : ℂ) ^ (2147483647 : Int) = z at hsq hproduct ⊢
  constructor <;> intro h <;> refine hproduct ?_ <;> push_cast at h
  · linear_combination -h - hsq
  · linear_combination h / 4 - hsq

/-! ### Atoms with the value zero -/

/-- The polynomial `x² - (s + s⁻¹)x + 1` in the second symbol, with the first one for `s`. -/
def reciprocalRoots : Form :=
  ⟨[(⟨[]⟩, 1), (⟨[(.symbol 0, -1), (.symbol 1, 1)]⟩, -1), (⟨[(.symbol 0, 1), (.symbol 1, 1)]⟩, -1),
    (⟨[(.symbol 1, 2)]⟩, 1)]⟩

/-- The opposite of the sum of the first symbol and its reciprocal. -/
def oppositeSum : Form := ⟨[(⟨[(.symbol 0, -1)]⟩, -1), (⟨[(.symbol 0, 1)]⟩, -1)]⟩

/-- The principal values when every symbol is zero. -/
noncomputable def zeroValuation : Valuation ℂ := Valuation.principal (fun _ => 0) fun _ _ => 1

/-- In the square of the second coefficient, the product of the symbol and its reciprocal has been
taken for one. -/
theorem value_discriminant_reciprocalRoots :
    reciprocalRoots.polynomial? 1 maxExactDegree = some [one, oppositeSum, one] ∧
      (⟨one, oppositeSum, one⟩ : Quadratic).discriminant.value zeroValuation = -2 ∧
      discriminantValue zeroValuation [one, oppositeSum, one] = -4 := by
  have hdiscriminant : (⟨one, oppositeSum, one⟩ : Quadratic).discriminant =
      ⟨[(⟨[]⟩, -2), (⟨[(.symbol 0, -2)]⟩, 1), (⟨[(.symbol 0, 2)]⟩, 1)]⟩ := by with_unfolding_all rfl
  have hsymbol : zeroValuation (.symbol 0) = 0 := by
    change Atom.principal _ _ _ = _
    rw [Atom.principal]
  have hsum : oppositeSum.value zeroValuation = 0 := by
    simp [oppositeSum, value, termsValue_cons, termsValue_nil, Monomial.value,
      Monomial.factorsValue_cons, Monomial.factorsValue_nil, hsymbol]
  refine ⟨by with_unfolding_all rfl, ?_, ?_⟩
  · simp [hdiscriminant, value, termsValue_cons, termsValue_nil, Monomial.value,
      Monomial.factorsValue_cons, Monomial.factorsValue_nil, hsymbol]
  · simp [discriminantValue, discrim, value_one, hsum]

/-! ### Radicals that do not belong together -/

/-- The number `(2^128 - 1) / (2^128 + 1)`. -/
def wideReal : Rat := (2 ^ 128 - 1) / (2 ^ 128 + 1)

/-- The number whose square and that of `wideReal` have the sum one. -/
def wideImaginary : Rat := 2 ^ 65 / (2 ^ 128 + 1)

/-- A constant whose opposite has the modulus one. -/
def wideConstant : Form := ⟨[(⟨[]⟩, -wideReal), (⟨[(.imaginaryUnit, 1)]⟩, -wideImaginary)]⟩

/-- The polynomial `x² - (a + bi)` in the first symbol, with `wideReal` for `a` and
`wideImaginary` for `b`. -/
def wideSquare : Form :=
  ⟨[(⟨[]⟩, -wideReal), (⟨[(.symbol 0, 2)]⟩, 1), (⟨[(.imaginaryUnit, 1)]⟩, -wideImaginary)]⟩

/-- The square root in the real part of the root. -/
def realRadical : Atom := .radical (ofRat (2 + 2 * wideReal)) 2

/-- The square root in the imaginary part of the root. -/
def imaginaryRadical : Atom := .radical (ofRat (2 - 2 * wideReal)) 2

/-- The root that is found. -/
def wideRoot : Form :=
  ⟨[(⟨[(.imaginaryUnit, 1), (imaginaryRadical, 1)]⟩, 1 / 2), (⟨[(realRadical, 1)]⟩, 1 / 2)]⟩

theorem exact_wideRoot_mem :
    wideSquare.polynomial? 0 maxExactDegree = some [wideConstant, zero, one] ∧
      .exact wideRoot ∈
        (⟨one, zero, wideConstant⟩ : Quadratic).roots { complexFormat := .cartesian } := by
  have hinverse : (one.scale 2).inverse? = some (ofRat (1 / 2)) := by with_unfolding_all rfl
  have hparts : (⟨one, zero, wideConstant⟩ : Quadratic).discriminant.gaussianParts? =
      some (4 * wideReal, 4 * wideImaginary) := by with_unfolding_all rfl
  have hsquareRoot : squareRootOfSum? (4 * wideReal) (4 * wideImaginary) =
      some (wideRoot.scale 2) := by with_unfolding_all rfl
  have hroot : (⟨one, zero, wideConstant⟩ : Quadratic).discriminant.root
      { complexFormat := .cartesian } 2 = .ok (wideRoot.scale 2) := by
    rw [root, if_neg (by with_unfolding_all decide),
      show (⟨one, zero, wideConstant⟩ : Quadratic).discriminant.toRat? = none by
        with_unfolding_all rfl]
    dsimp only
    rw [irrationalRoot, if_pos rfl, hparts]
    dsimp only
    rw [if_neg (by decide), hsquareRoot]
  have hhalf : mul (add (neg zero) (wideRoot.scale 2)) (ofRat (1 / 2)) = wideRoot := by
    with_unfolding_all rfl
  refine ⟨by with_unfolding_all rfl, ?_⟩
  rw [Quadratic.roots, hinverse]
  dsimp only
  rw [Quadratic.rootsWith, if_neg (by with_unfolding_all decide), hroot]
  dsimp only
  rw [hhalf]
  exact List.mem_cons_of_mem _ List.mem_cons_self


end Form

/-- The valuation that gives the square root of a form the opposite value. -/
def Valuation.opposite (v : Valuation K) (f : Form) : Valuation K where
  toFun := Function.update v (.radical f 2) (-v (.radical f 2))
  imaginaryUnit_sq := by
    simpa [Function.update_apply] using v.imaginaryUnit_sq
  root_pow := by
    intro q n hq hn
    simpa [Function.update_apply] using v.root_pow hq hn
  root_mul := by
    intro q r n hq hr hn
    simpa [Function.update_apply] using v.root_mul hq hr hn
  root_of_pow := by
    intro q n hq hn
    simpa [Function.update_apply] using v.root_of_pow hq hn

namespace Form

theorem lawful_opposite_radical (v : Valuation K) {q : Rat} (f : Form)
    (h : v.Lawful (.radical (ofRat q) 2)) : (v.opposite f).Lawful (.radical (ofRat q) 2) := by
  obtain ⟨hn, hne, hpow⟩ := h
  rw [value_ofRat] at hpow
  by_cases heq : f = ofRat q
  · have hvalue : v.opposite f (.radical (ofRat q) 2) = -v (.radical (ofRat q) 2) := by
      rw [heq]
      exact Function.update_self ..
    refine ⟨hn, ?_, ?_⟩ <;> rw [hvalue]
    · exact neg_ne_zero.2 hne
    · rw [neg_sq, hpow, value_ofRat]
  · have hvalue : v.opposite f (.radical (ofRat q) 2) = v (.radical (ofRat q) 2) :=
      Function.update_of_ne (fun h => heq (by cases h; rfl)) ..
    refine ⟨hn, ?_, ?_⟩ <;> rw [hvalue]
    · exact hne
    · rw [hpow, value_ofRat]

/-- The value at the root that is found shows whether the two radicals belong together. -/
theorem polynomialValue_wideRoot [CharZero K] (v : Valuation K) (hreal : v.Lawful realRadical)
    (himaginary : v.Lawful imaginaryRadical) :
    polynomialValue v [wideConstant, zero, one] (wideRoot.value v) =
      v .imaginaryUnit * (v realRadical * v imaginaryRadical / 2 - wideImaginary) := by
  have hr : v realRadical ^ 2 = 2 + 2 * (wideReal : K) := by
    rw [realRadical, hreal.2.2, value_ofRat]
    push_cast
    ring
  have hi : v imaginaryRadical ^ 2 = 2 - 2 * (wideReal : K) := by
    rw [imaginaryRadical, himaginary.2.2, value_ofRat]
    push_cast
    ring
  have hunit := v.imaginaryUnit_sq
  simp only [polynomialValue, List.foldr_cons, List.foldr_nil, value_one, value_zero]
  simp only [wideConstant, wideRoot, value, termsValue_cons, termsValue_nil, Monomial.value,
    Monomial.factorsValue_cons, Monomial.factorsValue_nil, zpow_one]
  push_cast
  linear_combination hr / 4 + v .imaginaryUnit ^ 2 * hi / 4 + (2 - 2 * (wideReal : K)) * hunit / 4

/-- There are signs of the radicals with which the answer is no root. -/
theorem exists_polynomialValue_wideRoot_ne : ∃ v : Valuation ℂ, v.Lawful realRadical ∧
    v.Lawful imaginaryRadical ∧
    polynomialValue v [wideConstant, zero, one] (wideRoot.value v) ≠ 0 := by
  have hlawful : ∀ {q : Rat}, q ≠ 0 → unitValuation.Lawful (.radical (ofRat q) 2) := by
    intro q hq
    refine Valuation.lawful_principal_radical _ _ le_rfl ?_
    rw [value_ofRat]
    exact_mod_cast hq
  have hreal : unitValuation.Lawful realRadical := hlawful (by norm_num [wideReal])
  have himaginary : unitValuation.Lawful imaginaryRadical := hlawful (by norm_num [wideReal])
  by_cases hroot : polynomialValue unitValuation [wideConstant, zero, one]
    (wideRoot.value unitValuation) = 0
  · -- the opposite of one of the radicals does not belong to the other
    let v := unitValuation.opposite (ofRat (2 + 2 * wideReal))
    have hreal' : v.Lawful realRadical := lawful_opposite_radical _ _ hreal
    have himaginary' : v.Lawful imaginaryRadical := lawful_opposite_radical _ _ himaginary
    refine ⟨v, hreal', himaginary', fun hroot' => ?_⟩
    rw [polynomialValue_wideRoot _ hreal himaginary] at hroot
    rw [polynomialValue_wideRoot _ hreal' himaginary'] at hroot'
    have hopposite : v realRadical = -unitValuation realRadical := Function.update_self ..
    have hsame : v imaginaryRadical = unitValuation imaginaryRadical :=
      Function.update_of_ne (by decide_cbv) ..
    have hproduct := (mul_eq_zero.1 hroot).resolve_left unitValuation.imaginaryUnit_ne_zero
    have hproduct' := (mul_eq_zero.1 hroot').resolve_left v.imaginaryUnit_ne_zero
    rw [hopposite, hsame] at hproduct'
    have hnone : (wideImaginary : ℂ) = 0 := by linear_combination (hproduct + hproduct') / -2
    exact absurd (Rat.cast_eq_zero.1 hnone) (by norm_num [wideImaginary])
  · exact ⟨unitValuation, hreal, himaginary, hroot⟩

/-- Exact roots need not be roots, and the last answer need not be the discriminant: where an
exponent leaves 32 bits, where an atom with the value zero has a negative exponent, and where the
signs of two radicals do not belong together. -/
theorem exists_polynomialRoots?_ne :
    (∃ ks r delta, hugePowers.polynomial? 0 maxExactDegree = some ks ∧
      hugePowers.polynomialRoots? {} 0 = some { degree := 2, answers := [.exact r, .exact delta] } ∧
      polynomialValue unitValuation ks (r.value unitValuation) ≠ 0 ∧
      delta.value unitValuation ≠ discriminantValue unitValuation ks) ∧
    (∃ ks answers delta, reciprocalRoots.polynomial? 1 maxExactDegree = some ks ∧
      reciprocalRoots.polynomialRoots? {} 1 =
        some { degree := 2, answers := answers ++ [.exact delta] } ∧
      delta.value zeroValuation ≠ discriminantValue zeroValuation ks) ∧
    ∃ (v : Valuation ℂ) (ks : _) (answers : _) (delta : Form) (r : Form),
      v.Lawful realRadical ∧ v.Lawful imaginaryRadical ∧
      wideSquare.polynomial? 0 maxExactDegree = some ks ∧
      wideSquare.polynomialRoots? { complexFormat := .cartesian } 0 =
        some { degree := 2, answers := answers ++ [.exact delta] } ∧
      .exact r ∈ answers ∧ polynomialValue v ks (r.value v) ≠ 0 := by
  refine ⟨?_, ?_, ?_⟩
  · obtain ⟨hpolynomial, hroots⟩ := polynomialRoots?_hugePowers {}
    obtain ⟨hroot, hdiscriminant⟩ := value_hugePowers
    exact ⟨_, _, _, hpolynomial, hroots, hroot,
      fun h => hdiscriminant (h.symm.trans (value_zero _))⟩
  · obtain ⟨hpolynomial, hvalue, hdiscriminant⟩ := value_discriminant_reciprocalRoots
    refine ⟨_, _, _, hpolynomial, polynomialRoots?_of_quadratic hpolynomial _, ?_⟩
    rw [hvalue, hdiscriminant]
    norm_num
  · obtain ⟨v, hreal, himaginary, hne⟩ := exists_polynomialValue_wideRoot_ne
    obtain ⟨hpolynomial, hmem⟩ := exact_wideRoot_mem
    refine ⟨v, _, _, _, wideRoot, hreal, himaginary, hpolynomial,
      polynomialRoots?_of_quadratic hpolynomial _, ?_, hne⟩
    exact (Answer.mem_listed_iff fun _ hx =>
      Quadratic.not_isApproximate_of_mem_roots (by simp [one, zero, ofRat]) hx).2 hmem

end Form

end Resolvent

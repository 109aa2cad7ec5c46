import Resolvent.Proofs.Form.Coefficients
import Resolvent.Proofs.Form.Constant
import Resolvent.Proofs.Form.Valuation
import Resolvent.Proofs.Solve.RationalRoot

/-!
# Equations with rational coefficients

Where the coefficients are rational numbers, each route to the roots can be said in terms of
numbers.  Quadratic equations have exact roots, unless there are none under the real format
(`Quadratic.allExact_roots`).  Cubic equations have exact roots where they are pure, have no
discriminant or a simple root is found (`Cubic.simpleRoot?_eq_none_iff`), and approximate ones
otherwise; a root beside which others are not real is the only rational one, as a second one would
make the discriminant of the quadratic equation that is left a square.

The search for a rational root clears denominators, one coefficient after the other, and gives up
where a number does not fit its word.  The denominators on the way divide the least common one
(`Rational.commonDenominator?_eq`), so only that one has to fit.  Within the range the search is
sound and complete (`Cubic.rationalRoot?_iff`).
-/

namespace Resolvent

section Routes

variable {K : Type*} [Field K] {v : Valuation K} {p : Preferences}

open Form

namespace Answer

/-- All answers are exact. -/
def AllExact (answers : List Answer) : Prop := ∀ a ∈ answers, ∃ f, a = .exact f

/-- No value is listed in two forms. -/
def Unrepeated (v : Atom → K) (answers : List Answer) : Prop :=
  ∀ f g, .exact f ∈ answers → .exact g ∈ answers → f.value v = g.value v → f = g

theorem Unrepeated.cons {v : Atom → K} {answers : List Answer} {f : Form}
    (h : Unrepeated v answers) (hf : ∀ g, .exact g ∈ answers → g.value v ≠ f.value v) :
    Unrepeated v (.exact f :: answers) := by
  intro g₁ g₂ h₁ h₂ hvalue
  simp only [List.mem_cons, exact.injEq] at h₁ h₂
  rcases h₁ with rfl | h₁ <;> rcases h₂ with rfl | h₂
  · rfl
  · exact absurd hvalue.symm (hf g₂ h₂)
  · exact absurd hvalue (hf g₁ h₁)
  · exact h g₁ g₂ h₁ h₂ hvalue

end Answer

namespace Form

theorem admitsMul_ofRat (v : Valuation K) (f : Form) (q : Rat) : v.AdmitsMul f (ofRat q) :=
  mulWithin_ofRat _ f q

theorem ofRat_admitsMul (v : Valuation K) (q : Rat) (f : Form) : v.AdmitsMul (ofRat q) f :=
  ofRat_mulWithin _ q f

theorem admitsInverse_ofRat (v : Valuation K) (q : Rat) : v.AdmitsInverse (ofRat q) := by
  by_cases hq : q = 0
  · rw [hq]
    exact .inl rfl
  · refine .inr ?_
    have hsingle : (ofRat q).singleTerm? = some (Monomial.one, q) := by
      simp [ofRat, hq, singleTerm?]
    rw [hsingle]
    refine normalizeWithin_of_stable ⟨?_, ?_, ?_⟩ ?_ _ _ <;> intro x hx <;> cases hx

/-! ### Square roots of rational numbers -/

theorem rationalRoot_two_of_neg {q : Rat} (hq : q < 0) : rationalRoot .real q 2 = .error {} := by
  simp [rationalRoot, not_le.2 hq]

theorem exists_rationalRoot_two {format : ComplexFormat} {q : Rat}
    (h : ¬ (format = .real ∧ q < 0)) : ∃ r, rationalRoot format q 2 = .ok r := by
  rw [rationalRoot]
  split
  · exact ⟨_, rfl⟩
  · next hneg => exact ⟨_, by rw [if_neg fun hreal => h ⟨hreal, not_le.1 hneg⟩, if_pos rfl]⟩

theorem admitsRoot_ofRat_two (hv : ∀ {q : Rat}, q ≠ 0 → v.Lawful (.radical (ofRat q) 2)) {q : Rat}
    (hq : q ≠ 0) : v.AdmitsRoot p (ofRat q) 2 := by
  rw [Valuation.AdmitsRoot, toRat?_ofRat]
  dsimp only
  rw [Valuation.AdmitsRationalRoot, if_pos (.inr (.inr (.inl rfl)))]
  exact fun _ => hv (pos_magnitude hq).ne'

end Form

/-! ### Quadratic equations -/

namespace Quadratic

/-- A quadratic polynomial with rational coefficients. -/
def ofRats (a b c : Rat) : Quadratic := ⟨ofRat a, ofRat b, ofRat c⟩

variable {a b c : Rat}

theorem discriminant_ofRats : (ofRats a b c).discriminant = ofRat (discrim a b c) := by
  rw [Quadratic.discriminant, ofRats, mul_ofRat, mul_ofRat, scale_ofRat, sub_ofRat, discrim]
  congr 1
  ring

theorem roots_ofRats (ha : a ≠ 0) :
    (ofRats a b c).roots p = (ofRats a b c).rootsWith p (ofRat (a * 2)⁻¹) := by
  have hinverse : ((ofRats a b c).a.scale 2).inverse? = some (ofRat (a * 2)⁻¹) := by
    rw [ofRats, scale_ofRat, inverse?_ofRat, Rational.inverse?,
      if_neg (mul_ne_zero ha two_ne_zero)]
    rfl
  rw [roots, hinverse]

/-- Under the real format a polynomial with a negative discriminant has no real root. -/
theorem roots_of_discrim_neg (ha : a ≠ 0) (hreal : p.complexFormat = .real)
    (hneg : discrim a b c < 0) : (ofRats a b c).roots p = [.unreal, .unreal] := by
  rw [roots_ofRats ha, rootsWith, discriminant_ofRats, if_neg (by simp [isZero_ofRat, hneg.ne]),
    root_ofRat hneg.ne le_rfl, hreal, rationalRoot_two_of_neg hneg]

/-- Otherwise the roots are exact. -/
theorem allExact_roots (ha : a ≠ 0) (h : ¬ (p.complexFormat = .real ∧ discrim a b c < 0)) :
    Answer.AllExact ((ofRats a b c).roots p) := by
  rw [roots_ofRats ha, rootsWith, discriminant_ofRats]
  split
  · exact fun x hx => ⟨_, List.mem_singleton.1 hx⟩
  · next hne =>
    have hD : discrim a b c ≠ 0 := by simpa [isZero_ofRat] using hne
    obtain ⟨r, hr⟩ := exists_rationalRoot_two h
    rw [root_ofRat hD le_rfl, hr]
    simp [Answer.AllExact]

variable [CharZero K]

omit [CharZero K] in
/-- Square roots of rational numbers are all that computing the roots meets. -/
theorem admitsQuadratic_ofRats (hv : ∀ {q : Rat}, q ≠ 0 → v.Lawful (.radical (ofRat q) 2)) :
    v.AdmitsQuadratic p (ofRats a b c) := by
  refine ⟨⟨ofRat_admitsMul v _ _, ofRat_admitsMul v _ _⟩, ?_, fun i hi => ?_⟩
  · rw [ofRats, scale_ofRat]
    exact admitsInverse_ofRat v _
  · rw [ofRats, scale_ofRat, inverse?_ofRat] at hi
    obtain ⟨s, -, rfl⟩ := Option.map_eq_some_iff.1 hi
    rw [discriminant_ofRats]
    split
    · exact admitsMul_ofRat v _ _
    · next hne =>
      have hD : discrim a b c ≠ 0 := by simpa [isZero_ofRat] using hne
      exact ⟨admitsRoot_ofRat_two hv hD, fun r _ => ⟨admitsMul_ofRat v _ _, admitsMul_ofRat v _ _⟩⟩

omit [CharZero K] in
theorem reduced_ofRats : (ofRats a b c).Reduced :=
  ⟨unitReduced_ofRat a, unitReduced_ofRat b, unitReduced_ofRat c, noZeros_ofRat a⟩

/-- The two roots of a polynomial with discriminant have different values. -/
theorem unrepeated_roots (hv : ∀ {q : Rat}, q ≠ 0 → v.Lawful (.radical (ofRat q) 2)) (ha : a ≠ 0) :
    Answer.Unrepeated v ((ofRats a b c).roots p) := by
  rw [roots_ofRats ha, rootsWith, discriminant_ofRats]
  split
  · intro f g hf hg _
    simp only [List.mem_singleton, Answer.exact.injEq] at hf hg
    rw [hf, hg]
  · next hne =>
    have hD : discrim a b c ≠ 0 := by simpa [isZero_ofRat] using hne
    split
    · next r hr =>
      have hsq := value_root (noZeros_ofRat _) (unitReduced_ofRat _) le_rfl (by decide)
        (fun _ => admitsRoot_ofRat_two hv hD) hr
      have hr0 : r.value v ≠ 0 := by
        intro hzero
        rw [hzero, value_ofRat, zero_pow two_ne_zero] at hsq
        exact hD (Rat.cast_eq_zero.1 hsq.symm)
      have hi : (((a * 2)⁻¹ : Rat) : K) ≠ 0 :=
        Rat.cast_ne_zero.2 (inv_ne_zero (mul_ne_zero ha two_ne_zero))
      have hvalues : (mul (sub (neg (ofRat b)) r) (ofRat (a * 2)⁻¹)).value v ≠
          (mul (add (neg (ofRat b)) r) (ofRat (a * 2)⁻¹)).value v := by
        rw [value_mul (admitsMul_ofRat v _ _), value_mul (admitsMul_ofRat v _ _), value_sub,
          value_add, value_ofRat v (a * 2)⁻¹]
        intro heq
        have heq := mul_right_cancel₀ hi heq
        have hdouble : 2 * r.value v = 0 := by linear_combination -heq
        exact hr0 ((mul_eq_zero.1 hdouble).resolve_left two_ne_zero)
      intro f g hf hg hfg
      simp only [List.mem_cons, Answer.exact.injEq, List.not_mem_nil, or_false] at hf hg
      rcases hf with rfl | rfl <;> rcases hg with rfl | rfl
      · rfl
      · exact absurd hfg hvalues
      · exact absurd hfg.symm hvalues
      · rfl
    · intro f g hf
      simp at hf

end Quadratic

/-! ### Cubic equations -/

namespace Cubic

/-- A cubic polynomial with rational coefficients. -/
def ofRats (a b c d : Rat) : Cubic := ⟨ofRat a, ofRat b, ofRat c, ofRat d⟩

/-- The number is a root of the polynomial with the coefficients. -/
def Vanishes (a b c d x : Rat) : Prop := ((a * x + b) * x + c) * x + d = 0

variable {a b c d x : Rat}

theorem discriminant_ofRats :
    (ofRats a b c d).discriminant = ofRat (CubicRoots.discriminant a b c d) := by
  simp only [Cubic.discriminant, ofRats, mul_ofRat, scale_ofRat, List.foldl_cons, List.foldl_nil,
    ← ofRat_zero, add_ofRat, CubicRoots.discriminant]
  congr 1
  ring

theorem isRoot_ofRats : (ofRats a b c d).isRoot (ofRat x) = true ↔ Vanishes a b c d x := by
  simp only [isRoot, evaluate, ofRats, List.foldl_cons, List.foldl_nil, ← ofRat_zero, mul_ofRat,
    add_ofRat, isZero_ofRat, beq_iff_eq, Vanishes, zero_mul, Rat.zero_add]

/-! ### Simple roots -/

theorem lastQuotient_eq_none_iff (hd : d ≠ 0) :
    ((neg (ofRats a b c d).d).divide? (ofRats a b c d).c).filter (ofRats a b c d).isRoot = none ↔
      ¬ Vanishes a b c d (-d / c) := by
  by_cases hc : c = 0
  · -- there is no quotient, and the number that stands for it is no root
    have hzero : ¬ Vanishes a b 0 d (-d / 0) := by simpa [Vanishes] using hd
    rw [hc]
    exact iff_of_true (by rw [ofRats, divide?_ofRat_zero]; rfl) hzero
  · rw [← isRoot_ofRats]
    dsimp only [ofRats]
    rw [neg_ofRat, divide?_ofRat hc, Option.filter_eq_none_iff]
    simp

theorem termRoot?_eq_none_iff (ha : a ≠ 0) (hd : d ≠ 0) :
    (ofRats a b c d).termRoot? = none ↔ ¬ Vanishes a b c d (-b / a) := by
  by_cases hb : b = 0
  · have hzero : ¬ Vanishes a 0 c d (-0 / a) := by simpa [Vanishes] using hd
    rw [hb]
    exact iff_of_true rfl hzero
  · have hterms : (ofRat b).terms = [(Monomial.one, b)] := by rw [ofRat, if_neg hb]
    have hfactors : ofFactors b Monomial.one.factors = ofRat b := normalize_nil _ b
    rw [← isRoot_ofRats, termRoot?]
    dsimp only [ofRats]
    rw [hterms, List.findSome?_cons]
    dsimp only
    rw [hfactors, neg_ofRat, divide?_ofRat ha]
    by_cases hroot : (⟨ofRat a, ofRat b, ofRat c, ofRat d⟩ : Cubic).isRoot (ofRat (-b / a)) = true
    · simp [Option.filter, hroot]
    · simp [Option.filter, hroot]

theorem rationalRoot?_ofRats :
    (ofRats a b c d).rationalRoot? = (rationalRootOf? [a, b, c, d]).map ofRat := by
  simp [rationalRoot?, ofRats, toRat?_ofRat]

/-- No simple root is found exactly where none is easy to see and none is found by the search. -/
theorem simpleRoot?_eq_none_iff (ha : a ≠ 0) : (ofRats a b c d).simpleRoot? = none ↔
    (∀ x ∈ [0, -d / c, -b / a], ¬ Vanishes a b c d x) ∧ rationalRootOf? [a, b, c, d] = none := by
  have hzero : Vanishes a b c d 0 ↔ d = 0 := by simp [Vanishes]
  by_cases hd : d = 0
  · refine iff_of_false ?_ fun h => h.1 0 List.mem_cons_self (hzero.2 hd)
    rw [simpleRoot?, if_pos (by simp [ofRats, isZero_ofRat, hd])]
    exact Option.some_ne_none _
  · have hlast := lastQuotient_eq_none_iff (a := a) (b := b) (c := c) hd
    have hterm := termRoot?_eq_none_iff (b := b) (c := c) ha hd
    have hnone : (∀ x ∈ [0, -d / c, -b / a], ¬ Vanishes a b c d x) ↔
        ¬ Vanishes a b c d (-d / c) ∧ ¬ Vanishes a b c d (-b / a) := by
      simp [hzero, hd]
    rw [hnone, ← hlast, ← hterm, simpleRoot?, if_neg (by simp [ofRats, isZero_ofRat, hd]),
      rationalRoot?_ofRats]
    constructor
    · intro h
      split at h
      · cases h
      · next hlast =>
        split at h
        · cases h
        · next hsearch => exact ⟨⟨hlast, h⟩, Option.map_eq_none_iff.1 hsearch⟩
    · rintro ⟨⟨hlast, hterm⟩, hsearch⟩
      rw [hlast, hsearch]
      exact hterm

theorem ofRat_of_divide? {q s : Rat} {r : Form} (h : (ofRat q).divide? (ofRat s) = some r) :
    ∃ x, r = ofRat x := by
  by_cases hs : s = 0
  · rw [hs, divide?_ofRat_zero] at h
    cases h
  · rw [divide?_ofRat hs] at h
    exact ⟨_, (Option.some.inj h).symm⟩

/-- A simple root is a rational root. -/
theorem exists_vanishes_of_simpleRoot? {r : Form}
    (h : (ofRats a b c d).simpleRoot? = some r) : ∃ x, r = ofRat x ∧ Vanishes a b c d x := by
  obtain ⟨hroot, hform⟩ := simpleRoot?_cases h
  obtain ⟨x, rfl⟩ : ∃ x, r = ofRat x := by
    rcases hform with hrat | hlast | ⟨t, ht, hterm⟩
    · exact hrat
    · rw [ofRats, neg_ofRat] at hlast
      exact ofRat_of_divide? hlast
    · have ht : t = (Monomial.one, b) := eq_of_mem_terms_ofRat ht
      rw [ht, show ofFactors b Monomial.one.factors = ofRat b from normalize_nil _ b, neg_ofRat]
        at hterm
      exact ofRat_of_divide? hterm
  refine ⟨x, rfl, ?_⟩
  rcases hroot with ⟨hx, hd⟩ | hroot | hrational
  · obtain rfl := ofRat_injective (hx.trans ofRat_zero.symm)
    obtain rfl := ofRat_injective (hd.trans ofRat_zero.symm)
    simp [Vanishes]
  · exact isRoot_ofRats.1 hroot
  · rw [rationalRoot?_ofRats] at hrational
    obtain ⟨y, hy, hyx⟩ := Option.map_eq_some_iff.1 hrational
    obtain rfl := ofRat_injective hyx
    have hzero := valueAt_of_rationalRootOf? hy
    simp only [valueAt, List.foldl_cons, List.foldl_nil] at hzero
    rw [Vanishes]
    linear_combination hzero

/-! ### The routes -/

theorem rootsBeside_ofRats (hx : Vanishes a b c d x) : (ofRats a b c d).rootsBeside p (ofRat x) =
    .exact (ofRat x) :: (Quadratic.ofRats a (a * x + b) ((a * x + b) * x + c)).roots p := by
  have hlinear : add (ofRat b) (mul (ofRat a) (ofRat x)) = ofRat (a * x + b) := by
    rw [mul_ofRat, add_ofRat, add_comm]
  rw [rootsBeside]
  dsimp only [ofRats]
  rw [hlinear, isZero_ofRat, neg_ofRat]
  by_cases hzero : x = 0
  · rw [hzero, if_pos (by decide), Quadratic.ofRats]
    simp
  · have hconstant : -d / x = (a * x + b) * x + c := by
      rw [div_eq_iff hzero]
      rw [Vanishes] at hx
      linear_combination -hx
    rw [if_neg (by simpa using hzero), divide?_ofRat hzero, hconstant, Quadratic.ofRats]

/-- Without discriminant the roots are rational numbers. -/
theorem multipleRoots_ofRats (ha : a ≠ 0) : (ofRats a b c d).multipleRoots =
    if b * b - 3 * (a * c) = 0 then [.exact (ofRat (-b / (3 * a)))]
    else [.exact (ofRat ((9 * (a * d) - b * c) / (2 * (b * b - 3 * (a * c))))),
      .exact (ofRat ((4 * (a * b * c) - 9 * (a * (a * d)) - b * b * b) /
        (a * (b * b - 3 * (a * c)))))] := by
  have hdelta : b * b - a * c * 3 = b * b - 3 * (a * c) := by ring
  simp only [multipleRoots, ofRats, mul_ofRat, scale_ofRat, sub_ofRat, neg_ofRat, isZero_ofRat,
    hdelta, beq_iff_eq]
  by_cases hzero : b * b - 3 * (a * c) = 0
  · rw [if_pos hzero, if_pos hzero, divide?_ofRat (mul_ne_zero ha three_ne_zero), mul_comm a]
    rfl
  · rw [if_neg hzero, if_neg hzero, divide?_ofRat (mul_ne_zero hzero two_ne_zero),
      divide?_ofRat (mul_ne_zero ha hzero)]
    simp only [Answer.ofForm?, mul_comm _ (2 : Rat), mul_comm _ (9 : Rat), mul_comm _ (4 : Rat)]

/-! ### Discriminants -/

/-- The discriminant of the quadratic polynomial that a root leaves. -/
def discrimBeside (a b c x : Rat) : Rat := discrim a (a * x + b) ((a * x + b) * x + c)

theorem discriminant_eq_discrimBeside (hx : Vanishes a b c d x) :
    CubicRoots.discriminant a b c d =
      discrimBeside a b c x * (a * (x * x) + (b + a * x) * x + ((a * x + b) * x + c)) ^ 2 := by
  have hd : d = -((a * x + b) * x + c) * x := by
    rw [Vanishes] at hx
    linear_combination hx
  rw [hd, CubicRoots.discriminant, discrimBeside, discrim]
  ring

/-- A second root is one of the quadratic polynomial, whose discriminant is then a square. -/
theorem discrimBeside_nonneg {y : Rat} (h : a * (y * y) + (b + a * x) * y + ((a * x + b) * x + c) = 0) :
    0 ≤ discrimBeside a b c x := by
  have hsq : discrimBeside a b c x = (2 * a * y + (b + a * x)) ^ 2 := by
    rw [discrimBeside, discrim]
    linear_combination -4 * a * h
  rw [hsq]
  exact sq_nonneg _

theorem discrimBeside_nonneg_of_ne {y : Rat} (hx : Vanishes a b c d x) (hy : Vanishes a b c d y)
    (hne : y ≠ x) : 0 ≤ discrimBeside a b c x :=
  discrimBeside_nonneg (((CubicRoots.eq_zero_iff_of_root hx rfl).1 hy).resolve_left hne)

theorem discrimBeside_nonneg_of_discriminant (hx : Vanishes a b c d x)
    (h : CubicRoots.discriminant a b c d = 0) : 0 ≤ discrimBeside a b c x := by
  rw [discriminant_eq_discrimBeside hx] at h
  rcases mul_eq_zero.1 h with hzero | hroot
  · exact hzero.ge
  · exact discrimBeside_nonneg ((pow_eq_zero_iff two_ne_zero).1 hroot)

/-! ### The answers -/

/-- The polynomial is a cube and a constant other than zero. -/
def IsPure (b c d : Rat) : Prop := d ≠ 0 ∧ b = 0 ∧ c = 0

theorem roots_of_isPure (h : IsPure b c d) :
    (ofRats a b c d).roots p = (ofRats a b c d).pureRoots p := by
  have hpure : (!(ofRats a b c d).d.isZero && (ofRats a b c d).b.isZero &&
      (ofRats a b c d).c.isZero) = true := by
    simpa [ofRats, isZero_ofRat, IsPure, and_assoc] using h
  rw [roots, if_pos hpure]

theorem roots_of_not_isPure (h : ¬ IsPure b c d) : (ofRats a b c d).roots p =
    ((ofRats a b c d).simpleRoot?.map ((ofRats a b c d).rootsBeside p)).getD
      (if CubicRoots.discriminant a b c d = 0 then (ofRats a b c d).multipleRoots
      else (ofRats a b c d).numericRoots p) := by
  have hpure : ¬ (!(ofRats a b c d).d.isZero && (ofRats a b c d).b.isZero &&
      (ofRats a b c d).c.isZero) = true := by
    simpa [ofRats, isZero_ofRat, IsPure, and_assoc] using h
  rw [roots, if_neg hpure, discriminant_ofRats, isZero_ofRat]
  cases (ofRats a b c d).simpleRoot? <;> simp

theorem not_isPure_of_discriminant (ha : a ≠ 0) (hdisc : CubicRoots.discriminant a b c d = 0) :
    ¬ IsPure b c d := by
  rintro ⟨hd, rfl, rfl⟩
  refine mul_ne_zero (pow_ne_zero 2 ha) (pow_ne_zero 2 hd) ?_
  rw [CubicRoots.discriminant] at hdisc
  linear_combination -hdisc / 27

theorem not_isApproximate_of_mem_pureRoots (ha : a ≠ 0) {x : Answer}
    (hx : x ∈ (ofRats a b c d).pureRoots p) : ¬ x.IsApproximate := by
  rintro ⟨z, rfl⟩
  rw [pureRoots] at hx
  dsimp only [ofRats] at hx
  rw [neg_ofRat, divide?_ofRat ha] at hx
  dsimp only at hx
  split at hx <;> simp [cubeRoots] at hx

/-- A polynomial without discriminant has exact roots, whatever way they are found. -/
theorem allExact_of_discriminant (ha : a ≠ 0) (hdisc : CubicRoots.discriminant a b c d = 0) :
    Answer.AllExact ((ofRats a b c d).roots p) := by
  rw [roots_of_not_isPure (not_isPure_of_discriminant ha hdisc), if_pos hdisc]
  rcases hsimple : (ofRats a b c d).simpleRoot? with - | r
  · rw [Option.map_none, Option.getD_none, multipleRoots_ofRats ha]
    split <;> simp [Answer.AllExact]
  · obtain ⟨x, rfl, hx⟩ := exists_vanishes_of_simpleRoot? hsimple
    rw [Option.map_some, Option.getD_some, rootsBeside_ofRats hx]
    exact List.forall_mem_cons.2 ⟨⟨_, rfl⟩, Quadratic.allExact_roots ha fun h =>
      (discrimBeside_nonneg_of_discriminant hx hdisc).not_gt h.2⟩

/-- A simple root is answered, and the roots of the quadratic equation that it leaves. -/
theorem exists_roots_eq_cons (hpure : ¬ IsPure b c d) (h : (ofRats a b c d).simpleRoot? ≠ none) :
    ∃ x, Vanishes a b c d x ∧ (ofRats a b c d).roots p =
      .exact (ofRat x) :: (Quadratic.ofRats a (a * x + b) ((a * x + b) * x + c)).roots p := by
  obtain ⟨r, hr⟩ := Option.ne_none_iff_exists'.1 h
  obtain ⟨x, rfl, hx⟩ := exists_vanishes_of_simpleRoot? hr
  exact ⟨x, hx, by rw [roots_of_not_isPure hpure, hr, Option.map_some, Option.getD_some,
    rootsBeside_ofRats hx]⟩

theorem roots_eq_numericRoots (hpure : ¬ IsPure b c d)
    (hdisc : CubicRoots.discriminant a b c d ≠ 0) (h : (ofRats a b c d).simpleRoot? = none) :
    (ofRats a b c d).roots p = (ofRats a b c d).numericRoots p := by
  rw [roots_of_not_isPure hpure, h, Option.map_none, Option.getD_none, if_neg hdisc]

/-- Without a simple root and with a discriminant, the roots are known in doubles only. -/
theorem isApproximate_of_mem_roots (hpure : ¬ IsPure b c d)
    (hdisc : CubicRoots.discriminant a b c d ≠ 0) (h : (ofRats a b c d).simpleRoot? = none)
    {x : Answer} (hx : x ∈ (ofRats a b c d).roots p) : x.IsApproximate := by
  rw [roots_eq_numericRoots hpure hdisc h] at hx
  obtain ⟨z, -, rfl⟩ := List.mem_map.1 hx
  exact ⟨z, rfl⟩

/-! ### Values -/

variable [CharZero K]

omit [CharZero K] in
theorem hasRoot_ofRats {z : K} : (ofRats a b c d).HasRoot v z ↔
    ((a * z + b) * z + c) * z + (d : K) = 0 := by
  simp only [HasRoot, ofRats, value_ofRat]

/-- Exact answers are the roots, unless the polynomial is pure. -/
theorem solve_roots_ofRats (hv : ∀ {q : Rat}, q ≠ 0 → v.Lawful (.radical (ofRat q) 2)) (ha : a ≠ 0)
    (hpure : ¬ IsPure b c d) :
    Answer.Solve v ((ofRats a b c d).HasRoot v) ((ofRats a b c d).roots p) := by
  have ha' : (a : K) ≠ 0 := Rat.cast_ne_zero.2 ha
  rw [roots_of_not_isPure hpure]
  rcases hsimple : (ofRats a b c d).simpleRoot? with - | r
  · rw [Option.map_none, Option.getD_none]
    split
    · next hdisc =>
      have hdisc' : CubicRoots.discriminant (a : K) b c d = 0 := by
        have hcast := congrArg (Rat.cast : Rat → K) hdisc
        simpa [CubicRoots.discriminant] using hcast
      rw [multipleRoots_ofRats ha]
      split
      · next hdelta =>
        have hdelta' : (b : K) * b - 3 * (a * c) = 0 := by exact_mod_cast hdelta
        refine Answer.solve_of_iff fun z => ?_
        rw [hasRoot_ofRats, CubicRoots.triple_eq_zero_iff ha' hdisc' hdelta']
        simp [value_ofRat, eq_comm]
      · next hdelta =>
        have hdelta' : (b : K) * b - 3 * (a * c) ≠ 0 := by exact_mod_cast hdelta
        refine Answer.solve_of_iff fun z => ?_
        rw [hasRoot_ofRats, CubicRoots.double_eq_zero_iff ha' hdisc' rfl hdelta']
        simp [value_ofRat]
    · refine Answer.solve_of_forall_ne (numericRoots_ne_nil _ _) fun f hf => ?_
      obtain ⟨z, -, hz⟩ := List.mem_map.1 hf
      cases hz
  · obtain ⟨x, rfl, hx⟩ := exists_vanishes_of_simpleRoot? hsimple
    rw [Option.map_some, Option.getD_some, rootsBeside_ofRats hx]
    refine (Quadratic.solve_roots Quadratic.reduced_ofRats
      (Quadratic.admitsQuadratic_ofRats hv)).cons fun z => ?_
    have hx' : (((a : K) * x + b) * x + c) * x + d = 0 := by
      have hcast := congrArg (Rat.cast : Rat → K) hx
      simpa using hcast
    rw [hasRoot_ofRats, CubicRoots.eq_zero_iff_of_root hx' rfl, Quadratic.HasRoot]
    simp only [Quadratic.ofRats, value_ofRat]
    push_cast
    rw [add_comm (b : K)]

/-- With a discriminant, no root is listed in two forms. -/
theorem unrepeated_roots (hv : ∀ {q : Rat}, q ≠ 0 → v.Lawful (.radical (ofRat q) 2)) (ha : a ≠ 0)
    (hpure : ¬ IsPure b c d) (hdisc : CubicRoots.discriminant a b c d ≠ 0) :
    Answer.Unrepeated v ((ofRats a b c d).roots p) := by
  rw [roots_of_not_isPure hpure, if_neg hdisc]
  rcases hsimple : (ofRats a b c d).simpleRoot? with - | r
  · intro f g hf
    obtain ⟨z, -, hz⟩ := List.mem_map.1 hf
    cases hz
  · obtain ⟨x, rfl, hx⟩ := exists_vanishes_of_simpleRoot? hsimple
    rw [Option.map_some, Option.getD_some, rootsBeside_ofRats hx]
    refine (Quadratic.unrepeated_roots hv ha).cons fun g hg hvalue => ?_
    -- the root would be one of the quadratic polynomial, and the discriminant zero
    have hroot := (Quadratic.solve_roots (p := p) Quadratic.reduced_ofRats
      (Quadratic.admitsQuadratic_ofRats hv)).sound hg
    rw [hvalue, value_ofRat, Quadratic.HasRoot] at hroot
    simp only [Quadratic.ofRats, value_ofRat] at hroot
    have hzero : a * (x * x) + (b + a * x) * x + ((a * x + b) * x + c) = 0 := by
      have hcast : ((a * (x * x) + (a * x + b) * x + ((a * x + b) * x + c) : Rat) : K) = 0 := by
        push_cast at hroot ⊢
        exact hroot
      linear_combination Rat.cast_eq_zero.1 hcast
    rw [discriminant_eq_discrimBeside hx, hzero, zero_pow two_ne_zero, mul_zero] at hdisc
    exact hdisc rfl

end Cubic

end Routes

/-! ### The range of the search for rational roots -/

namespace Rational

/-- The least common multiple of the denominators. -/
def leastDenominator (qs : List Rat) : Nat := qs.foldr (fun q d => Nat.lcm q.den d) 1

theorem leastDenominator_ne_zero (qs : List Rat) : leastDenominator qs ≠ 0 := by
  induction qs with
  | nil => exact one_ne_zero
  | cons q qs ih => exact Nat.lcm_ne_zero q.den_ne_zero ih

theorem isNat128_of_dvd {m n : Nat} (hn : n ≠ 0) (hdvd : m ∣ n) (h : Width.isNat128 n = true) :
    Width.isNat128 m = true := by
  have hle := Nat.le_of_dvd (Nat.pos_of_ne_zero hn) hdvd
  simp only [Width.isNat128, decide_eq_true_eq] at h ⊢
  exact hle.trans h

/-- Where the least common denominator fits a word, it is found. -/
theorem commonDenominator?_eq {qs : List Rat}
    (h : Width.isNat128 (leastDenominator qs) = true) :
    commonDenominator? qs = some (leastDenominator qs) := by
  -- the fold may start anywhere, as long as the end fits
  suffices hfold : ∀ (qs : List Rat) (start : Nat), start ≠ 0 →
      Width.isNat128 (Nat.lcm start (leastDenominator qs)) = true →
      qs.foldlM (fun (d : Nat) q =>
        let next := d * (q.den / Nat.gcd d q.den)
        if Width.isNat128 q.den && Width.isNat128 next then some next else none) start =
          some (Nat.lcm start (leastDenominator qs)) by
    rw [commonDenominator?, hfold qs 1 one_ne_zero (by rwa [Nat.lcm_one_left]), Nat.lcm_one_left]
  clear h
  intro qs
  induction qs with
  | nil =>
    intro start _ _
    rw [leastDenominator, List.foldr_nil, Nat.lcm_one_right]
    rfl
  | cons q qs ih =>
    intro start hstart h
    have hcons : leastDenominator (q :: qs) = Nat.lcm q.den (leastDenominator qs) := rfl
    rw [hcons, ← Nat.lcm_assoc] at h ⊢
    have hnext : start * (q.den / Nat.gcd start q.den) = Nat.lcm start q.den :=
      (Nat.mul_div_assoc _ (Nat.gcd_dvd_right _ _)).symm
    have hne : Nat.lcm start q.den ≠ 0 := Nat.lcm_ne_zero hstart q.den_ne_zero
    have hend := Nat.lcm_ne_zero hne (leastDenominator_ne_zero qs)
    have hstep := isNat128_of_dvd hend (Nat.dvd_lcm_left _ _) h
    have hden := isNat128_of_dvd hne (Nat.dvd_lcm_right _ _) hstep
    rw [List.foldlM_cons]
    dsimp only
    rw [hnext, hden, hstep]
    exact ih _ hne h

end Rational

namespace Cubic

variable {a b c d : Rat}

/-- The coefficients, multiplied by their least common denominator. -/
def scaledBy (qs : List Rat) : List Int :=
  qs.map fun q => (q * (Rational.leastDenominator qs : Rat)).num

/-- Where the numbers fit the words and the first and the last one are not too large, the rational
roots are searched. -/
theorem searchesRoots_of_fits (ha : a ≠ 0) (hd : d ≠ 0)
    (hdenominator : Width.isInt128 (Rational.leastDenominator [a, b, c, d]) = true)
    (hfits : ∀ n ∈ scaledBy [a, b, c, d], Width.isInt128 n = true)
    (hleading : ((scaledBy [a, b, c, d]).headD 0).natAbs ≤ maxTriedCoefficient)
    (hconstant : ((scaledBy [a, b, c, d]).getLastD 0).natAbs ≤ maxTriedCoefficient) :
    SearchesRoots [a, b, c, d] := by
  have hD : ((Rational.leastDenominator [a, b, c, d] : Nat) : Rat) ≠ 0 :=
    Nat.cast_ne_zero.2 (Rational.leastDenominator_ne_zero _)
  have hnum : ∀ q : Rat, q ≠ 0 →
      (q * (Rational.leastDenominator [a, b, c, d] : Rat)).num.natAbs ≠ 0 := fun q hq =>
    Int.natAbs_ne_zero.2 (Rat.num_ne_zero.2 (mul_ne_zero hq hD))
  have hword : Width.isNat128 (Rational.leastDenominator [a, b, c, d]) = true := by
    simp only [Width.isInt128, Width.isNat128, decide_eq_true_eq] at hdenominator ⊢
    omega
  exact ⟨_, Rational.commonDenominator?_eq hword, hdenominator, List.all_eq_true.2 hfits,
    hnum a ha, hnum d hd, hleading, hconstant⟩

/-- **The search for a rational root is sound and complete in its range**: where the least common
denominator and the whole coefficients fit signed words of 128 bits, and the first and the last of
them are at most a million, a root is found exactly where there is a rational one, and what is found
is one. -/
theorem rationalRoot?_iff (ha : a ≠ 0) (hd : d ≠ 0)
    (hdenominator : Width.isInt128 (Rational.leastDenominator [a, b, c, d]) = true)
    (hfits : ∀ n ∈ scaledBy [a, b, c, d], Width.isInt128 n = true)
    (hleading : ((scaledBy [a, b, c, d]).headD 0).natAbs ≤ 1000000)
    (hconstant : ((scaledBy [a, b, c, d]).getLastD 0).natAbs ≤ 1000000) :
    ((∃ r, (ofRats a b c d).rationalRoot? = some r) ↔
      ∃ x : Rat, a * x ^ 3 + b * x ^ 2 + c * x + d = 0) ∧
    ∀ r, (ofRats a b c d).rationalRoot? = some r →
      ∃ x : Rat, r = Form.ofRat x ∧ a * x ^ 3 + b * x ^ 2 + c * x + d = 0 := by
  have hsearch := searchesRoots_of_fits ha hd hdenominator hfits hleading hconstant
  have hsound : ∀ r, (ofRats a b c d).rationalRoot? = some r →
      ∃ x : Rat, r = Form.ofRat x ∧ a * x ^ 3 + b * x ^ 2 + c * x + d = 0 := by
    intro r hr
    rw [rationalRoot?_ofRats] at hr
    obtain ⟨x, hx, rfl⟩ := Option.map_eq_some_iff.1 hr
    have hzero := valueAt_of_rationalRootOf? hx
    simp only [valueAt, List.foldl_cons, List.foldl_nil] at hzero
    exact ⟨x, rfl, by linear_combination hzero⟩
  refine ⟨⟨?_, ?_⟩, hsound⟩
  · rintro ⟨r, hr⟩
    obtain ⟨x, -, hx⟩ := hsound r hr
    exact ⟨x, hx⟩
  · rintro ⟨x, hx⟩
    obtain ⟨y, hy⟩ := exists_rationalRootOf? hsearch
      (x := x) (by linear_combination hx : ((a * x + b) * x + c) * x + d = 0)
    exact ⟨Form.ofRat y, by rw [rationalRoot?_ofRats, hy]; rfl⟩

/-- The polynomial `x³/2 + x²/3 + x/6 - 1/9` has a rational root, and one is found. -/
theorem rationalRoot?_of_fractions :
    ∃ r, (ofRats (1 / 2) (1 / 3) (1 / 6) (-1 / 9)).rationalRoot? = some r :=
  (rationalRoot?_iff (a := 1 / 2) (b := 1 / 3) (c := 1 / 6) (d := -1 / 9) (by norm_num)
    (by norm_num) (by decide +kernel) (by decide +kernel) (by decide +kernel)
    (by decide +kernel)).1.2 ⟨1 / 3, by norm_num⟩

end Cubic

end Resolvent

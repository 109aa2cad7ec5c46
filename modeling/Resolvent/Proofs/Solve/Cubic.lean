import Mathlib.Algebra.QuadraticDiscriminant
import Resolvent.Proofs.Form.Radical
import Resolvent.Proofs.Solve.Answers
import Resolvent.Solve.Polynomial

/-!
# Quadratic and cubic equations

The answers that `Quadratic.roots` gives are the roots (`Quadratic.solve_roots`), under any
valuation that admits what computing them normalises (`Valuation.AdmitsQuadratic`): exact answers
are roots, and if all answers are exact there are no other roots.

The answers that `Cubic.roots` gives are the roots (`Cubic.solve_roots`), under any valuation that
admits what computing them normalises (`Valuation.AdmitsCubic`).  There are three exact ways to
them: a root that is easy to see leaves a quadratic equation (`Cubic.solve_rootsBeside`), a pure
equation has the multiples of one cube root by the cube roots of one (`Cubic.solve_pureRoots`), and
without discriminant two of the roots are equal (`Cubic.solve_multipleRoots`).  What each rests on
is first said of numbers.
-/

namespace Resolvent

variable {K : Type*} [Field K] {p : Preferences}

namespace Form

/-- The coefficients of a product are not zero. -/
theorem noZeros_mul (f g : Form) : (mul f g).NoZeros := noZeros_mulWith (noZeros_normalize _) f g

theorem noZeros_divide? {f g q : Form} (h : f.divide? g = some q) : q.NoZeros := by
  obtain ⟨i, -, rfl⟩ := Option.map_eq_some_iff.1 h
  exact noZeros_mul f i

theorem scale_ne_zero {f : Form} (h : f ≠ zero) {k : Rat} (hk : k ≠ 0) : f.scale k ≠ zero := by
  obtain ⟨terms⟩ := f
  rw [scale, if_neg hk]
  simpa [zero] using h

end Form

open Form

/-! ### What the roots normalise -/

namespace Valuation

variable (v : Valuation K)

/-- The valuation admits what the discriminant of a quadratic polynomial meets. -/
def AdmitsQuadraticDiscriminant (q : Quadratic) : Prop :=
  v.AdmitsMul q.b q.b ∧ v.AdmitsMul q.a q.c

/-- The valuation admits what the roots of a quadratic polynomial meet. -/
def AdmitsQuadratic (p : Preferences) (q : Quadratic) : Prop :=
  v.AdmitsQuadraticDiscriminant q ∧ v.AdmitsInverse (q.a.scale 2) ∧
    ∀ i, (q.a.scale 2).inverse? = some i →
      if q.discriminant.isZero then v.AdmitsMul (neg q.b) i
      else v.AdmitsRoot p q.discriminant 2 ∧ ∀ r, q.discriminant.root p 2 = .ok r →
        v.AdmitsMul (sub (neg q.b) r) i ∧ v.AdmitsMul (add (neg q.b) r) i

end Valuation

namespace Quadratic

variable {v : Valuation K} {q : Quadratic}

/-- The coefficients are forms as arithmetic makes them. -/
structure Reduced (q : Quadratic) : Prop where
  /-- The imaginary unit is reduced in the leading coefficient. -/
  a : q.a.UnitReduced
  /-- It is reduced in the second coefficient. -/
  b : q.b.UnitReduced
  /-- It is reduced in the constant. -/
  c : q.c.UnitReduced
  /-- No coefficient of the leading one is zero. -/
  noZeros : q.a.NoZeros

/-- The number is a root of the polynomial. -/
def HasRoot (v : Atom → K) (q : Quadratic) (x : K) : Prop :=
  q.a.value v * (x * x) + q.b.value v * x + q.c.value v = 0

theorem noZeros_discriminant (q : Quadratic) : q.discriminant.NoZeros :=
  (noZeros_mul q.b q.b).sub ((noZeros_mul q.a q.c).scale 4)

theorem Reduced.discriminant (h : q.Reduced) : q.discriminant.UnitReduced :=
  (h.b.mul h.b).sub ((h.a.mul h.c).scale 4)

variable [CharZero K]

theorem value_discriminant (h : v.AdmitsQuadraticDiscriminant q) :
    q.discriminant.value v = discrim (q.a.value v) (q.b.value v) (q.c.value v) := by
  rw [Quadratic.discriminant, value_sub, value_scale, value_mul h.1, value_mul h.2, discrim]
  push_cast
  ring

/-- The leading coefficient is not zero, and the quotient by its double is a product. -/
theorem value_mul_half_inverse (hq : q.a.NoZeros) (h : v.AdmitsInverse (q.a.scale 2)) {i : Form}
    (hi : (q.a.scale 2).inverse? = some i) :
    q.a.value v ≠ 0 ∧ ∀ x : K, x * i.value v = x / (2 * q.a.value v) := by
  have hinverse := value_mul_inverse? (hq.scale 2) h hi
  rw [value_scale] at hinverse
  push_cast at hinverse
  refine ⟨right_ne_zero_of_mul (right_ne_zero_of_mul_eq_one hinverse), fun x => ?_⟩
  rw [eq_inv_of_mul_eq_one_left hinverse, div_eq_mul_inv]

theorem solve_rootsWith (hq : q.Reduced) (h : v.AdmitsQuadratic p q) {i : Form}
    (hi : (q.a.scale 2).inverse? = some i) :
    Answer.Solve v (q.HasRoot v) (q.rootsWith p i) := by
  obtain ⟨hdiscriminant, hinverse, hrest⟩ := h
  have hrest := hrest i hi
  have hvalue := value_discriminant hdiscriminant
  obtain ⟨ha, hhalf⟩ := value_mul_half_inverse hq.noZeros hinverse hi
  rw [rootsWith]
  split
  · next hzero =>
    rw [if_pos hzero] at hrest
    rw [isZero_iff.1 hzero, value_zero] at hvalue
    refine Answer.solve_of_iff fun x => ?_
    rw [HasRoot, quadratic_eq_zero_iff_of_discrim_eq_zero ha hvalue.symm]
    simp [value_mul hrest, hhalf, value_neg, eq_comm]
  · next hne =>
    rw [if_neg hne] at hrest
    obtain ⟨hroot, hproducts⟩ := hrest
    split
    · next r hr =>
      obtain ⟨hminus, hplus⟩ := hproducts r hr
      have hsq := value_root (noZeros_discriminant q) hq.discriminant le_rfl (by decide)
        (fun _ => hroot) hr
      rw [hvalue, pow_two] at hsq
      refine Answer.solve_of_iff fun x => ?_
      rw [HasRoot, quadratic_eq_zero_iff ha hsq.symm, or_comm]
      simp [value_mul hminus, value_mul hplus, hhalf, value_neg, value_add, value_sub, eq_comm]
    · exact Answer.solve_of_forall_ne (by simp) (by simp)

/-- **Quadratic equations**: exact roots are roots, and if all are exact there are no others. -/
theorem solve_roots (hq : q.Reduced) (h : v.AdmitsQuadratic p q) :
    Answer.Solve v (q.HasRoot v) (q.roots p) := by
  rw [roots]
  split
  · next i hi => exact solve_rootsWith hq h hi
  · exact Answer.solve_of_forall_ne (by simp) (by simp [Answer.undefined])

/-- No root is known in doubles only. -/
theorem not_isApproximate_of_mem_roots {q : Quadratic} (ha : q.a ≠ zero) {x : Answer}
    (hx : x ∈ q.roots p) : ¬ x.IsApproximate := by
  obtain ⟨i, hi⟩ := exists_inverse? (scale_ne_zero ha (k := 2) (by decide))
  rw [roots, hi] at hx
  dsimp only at hx
  rw [rootsWith] at hx
  rintro ⟨z, rfl⟩
  split at hx
  · simp at hx
  · split at hx <;> simp at hx

end Quadratic

end Resolvent

/-! ## Cubic equations -/

namespace Resolvent

variable {K : Type*} [Field K] {p : Preferences}

/-! ### Cubic polynomials over a field -/

namespace CubicRoots

variable {a b c d x : K}

/-- A root leaves a quadratic polynomial. -/
theorem eq_zero_iff_of_root {r k : K} (hr : ((a * r + b) * r + c) * r + d = 0)
    (hk : k = (a * r + b) * r + c) :
    ((a * x + b) * x + c) * x + d = 0 ↔ x = r ∨ a * (x * x) + (b + a * r) * x + k = 0 := by
  have hfactor : ((a * x + b) * x + c) * x + d =
      (x - r) * (a * (x * x) + (b + a * r) * x + k) := by
    rw [hk]
    linear_combination hr
  rw [hfactor, mul_eq_zero, sub_eq_zero]

/-- The cube roots of a number are the multiples of one by the cube roots of one. -/
theorem pure_eq_zero_iff [CharZero K] (ha : a ≠ 0) {r w : K} (hr : r ^ 3 * a = -d) (hw : w ^ 2 = -3) :
    a * x ^ 3 + d = 0 ↔
      r * (-1 / 2 + w / 2) = x ∨ r * (-1 / 2 - w / 2) = x ∨ r = x := by
  have hfactor : a * x ^ 3 + d =
      a * ((r * (-1 / 2 + w / 2) - x) * (r * (-1 / 2 - w / 2) - x) * (x - r)) := by
    linear_combination hr + a * r ^ 2 * (x - r) / 4 * hw
  rw [hfactor, mul_eq_zero, or_iff_right ha, mul_eq_zero, mul_eq_zero, sub_eq_zero, sub_eq_zero,
    sub_eq_zero, or_assoc, @eq_comm _ x r]

/-- The discriminant of a cubic polynomial. -/
def discriminant (a b c d : K) : K :=
  b ^ 2 * c ^ 2 + 18 * a * b * c * d - 27 * a ^ 2 * d ^ 2 - 4 * a * c ^ 3 - 4 * b ^ 3 * d

/-- Without discriminant and with `b² = 3ac` there is one root, three times. -/
theorem triple_eq_zero_iff [CharZero K] (ha : a ≠ 0) (hdisc : discriminant a b c d = 0)
    (hdelta : b * b - 3 * (a * c) = 0) :
    ((a * x + b) * x + c) * x + d = 0 ↔ x = -b / (3 * a) := by
  have hcube : (b ^ 3 - 27 * a ^ 2 * d) ^ 2 = 0 := by
    rw [discriminant] at hdisc
    linear_combination -27 * a ^ 2 * hdisc + (9 * b ^ 2 * (b * b - 3 * (a * c)) -
      6 * b * (2 * b ^ 3 - 9 * a * b * c + 27 * a ^ 2 * d) +
      4 * (b * b - 3 * (a * c)) ^ 2) * hdelta
  have hzero := pow_eq_zero_iff two_ne_zero |>.1 hcube
  have hpower : 27 * a ^ 2 * (((a * x + b) * x + c) * x + d) = (3 * a * x + b) ^ 3 := by
    linear_combination -9 * a * x * hdelta - hzero
  have h3a : 3 * a ≠ 0 := mul_ne_zero three_ne_zero ha
  constructor
  · intro h
    rw [h, mul_zero] at hpower
    have := pow_eq_zero_iff three_ne_zero |>.1 hpower.symm
    rw [eq_div_iff h3a]
    linear_combination this
  · intro h
    rw [eq_div_iff h3a] at h
    have hsum : 3 * a * x + b = 0 := by linear_combination h
    rw [hsum, zero_pow three_ne_zero] at hpower
    exact (mul_eq_zero.1 hpower).resolve_left (mul_ne_zero (by norm_num) (pow_ne_zero 2 ha))

/-- Without discriminant there are a double and a simple root. -/
theorem double_eq_zero_iff [CharZero K] (ha : a ≠ 0) (hdisc : discriminant a b c d = 0) {e : K}
    (he : e = b * b - 3 * (a * c)) (hne : e ≠ 0) :
    ((a * x + b) * x + c) * x + d = 0 ↔ (9 * (a * d) - b * c) / (2 * e) = x ∨
      (4 * (a * b * c) - 9 * (a * (a * d)) - b * b * b) / (a * e) = x := by
  have hfactor : 4 * e ^ 3 * (((a * x + b) * x + c) * x + d) =
      (2 * e * x - (9 * (a * d) - b * c)) ^ 2 *
        (a * e * x - (4 * (a * b * c) - 9 * (a * (a * d)) - b * b * b)) := by
    rw [discriminant] at hdisc
    subst he
    linear_combination (-9 * a * (b * b - 3 * (a * c)) * x + 27 * a ^ 2 * d - b ^ 3) * hdisc
  have h2e : 2 * e ≠ 0 := mul_ne_zero two_ne_zero hne
  have hae : a * e ≠ 0 := mul_ne_zero ha hne
  rw [div_eq_iff h2e, div_eq_iff hae]
  constructor
  · intro h
    rw [h, mul_zero] at hfactor
    rcases mul_eq_zero.1 hfactor.symm with hdouble | hsimple
    · left
      linear_combination -(pow_eq_zero_iff two_ne_zero |>.1 hdouble)
    · right
      linear_combination -hsimple
  · intro h
    have hzero : 4 * e ^ 3 * (((a * x + b) * x + c) * x + d) = 0 := by
      rw [hfactor]
      rcases h with h | h
      · rw [h]
        ring
      · rw [h]
        ring
    exact (mul_eq_zero.1 hzero).resolve_left (mul_ne_zero (by norm_num) (pow_ne_zero 3 hne))

end CubicRoots

open Form

namespace Cubic

/-- The opposite of a half. -/
def half : Form := ofRat (-1 / 2)

/-- Half the square root of three, times the imaginary unit. -/
def rotation : Form := ofFactors (1 / 2) [(.root 3 2, 1), (.imaginaryUnit, 1)]

end Cubic

/-! ### What the roots normalise -/

namespace Valuation

variable (v : Valuation K)

/-- The valuation admits what the discriminant of a cubic polynomial meets. -/
def AdmitsCubicDiscriminant (q : Cubic) : Prop :=
  let bc := mul q.b q.c
  let ad := mul q.a q.d
  v.AdmitsMul q.b q.c ∧ v.AdmitsMul q.a q.d ∧ v.AdmitsMul bc bc ∧ v.AdmitsMul ad bc ∧
    v.AdmitsMul ad ad ∧ v.AdmitsMul q.a q.c ∧ v.AdmitsMul q.c q.c ∧
    v.AdmitsMul (mul q.a q.c) (mul q.c q.c) ∧ v.AdmitsMul q.b q.b ∧ v.AdmitsMul q.b q.d ∧
    v.AdmitsMul (mul q.b q.b) (mul q.b q.d)

/-- The valuation admits what the value of a polynomial at a form meets, the leading coefficient
first. -/
def AdmitsEvaluate (r : Form) : Form → List Form → Prop
  | _, [] => True
  | value, k :: ks => v.AdmitsMul value r ∧ AdmitsEvaluate r (add (mul value r) k) ks

/-- The valuation admits what the roots beside a root meet. -/
def AdmitsRootsBeside (p : Preferences) (q : Cubic) (r : Form) : Prop :=
  v.AdmitsMul q.a r ∧ (r.isZero = false → v.AdmitsDivide (neg q.d) r) ∧
    ∀ constant, (if r.isZero then some q.c else (neg q.d).divide? r) = some constant →
      v.AdmitsQuadratic p ⟨q.a, add q.b (mul q.a r), constant⟩

/-- The valuation admits what the roots of a polynomial `ax³ + d` meet. -/
def AdmitsPureRoots (p : Preferences) (q : Cubic) : Prop :=
  v.AdmitsDivide (neg q.d) q.a ∧ ∀ ratio, (neg q.d).divide? q.a = some ratio →
    v.AdmitsRoot p ratio 3 ∧ ∀ r, ratio.root p 3 = .ok r →
      v.AdmitsMul r (add Cubic.half Cubic.rotation) ∧ v.AdmitsMul r (sub Cubic.half Cubic.rotation)

/-- The valuation admits what a double root and the root beside it meet. -/
structure AdmitsDoubleRoot (q : Cubic) (delta : Form) : Prop where
  ad : v.AdmitsMul q.a q.d
  bc : v.AdmitsMul q.b q.c
  bb : v.AdmitsMul q.b q.b
  ab : v.AdmitsMul q.a q.b
  abc : v.AdmitsMul (mul q.a q.b) q.c
  aad : v.AdmitsMul q.a (mul q.a q.d)
  bbb : v.AdmitsMul (mul q.b q.b) q.b
  /-- The denominator of the simple root. -/
  leading : v.AdmitsMul q.a delta
  /-- The double root. -/
  double : v.AdmitsDivide (sub ((mul q.a q.d).scale 9) (mul q.b q.c)) (delta.scale 2)
  /-- The simple root. -/
  simple : v.AdmitsDivide (sub (sub ((mul (mul q.a q.b) q.c).scale 4)
    ((mul q.a (mul q.a q.d)).scale 9)) (mul (mul q.b q.b) q.b)) (mul q.a delta)

/-- The valuation admits what the roots of a polynomial without discriminant meet. -/
def AdmitsMultipleRoots (q : Cubic) : Prop :=
  let delta := sub (mul q.b q.b) ((mul q.a q.c).scale 3)
  v.AdmitsMul q.b q.b ∧ v.AdmitsMul q.a q.c ∧
    if delta.isZero then v.AdmitsDivide (neg q.b) (q.a.scale 3) else v.AdmitsDoubleRoot q delta

/-- The valuation admits what the roots of a cubic polynomial meet. -/
def AdmitsCubic (p : Preferences) (q : Cubic) : Prop :=
  v.AdmitsCubicDiscriminant q ∧
    if !q.d.isZero && q.b.isZero && q.c.isZero then v.AdmitsPureRoots p q
    else
      match q.simpleRoot? with
      | some r => v.AdmitsEvaluate r zero [q.a, q.b, q.c, q.d] ∧ v.AdmitsRootsBeside p q r
      | none => q.discriminant.isZero → v.AdmitsMultipleRoots q

end Valuation

namespace Cubic

variable {v : Valuation K} {q : Cubic}

/-- The coefficients are forms as arithmetic makes them, the leading one not zero. -/
structure Reduced (q : Cubic) : Prop where
  /-- The imaginary unit is reduced in the leading coefficient. -/
  a : q.a.UnitReduced
  /-- It is reduced in the second coefficient. -/
  b : q.b.UnitReduced
  /-- It is reduced in the third coefficient. -/
  c : q.c.UnitReduced
  /-- It is reduced in the constant. -/
  d : q.d.UnitReduced
  /-- No coefficient of the leading one is zero. -/
  noZeros : q.a.NoZeros
  /-- The leading coefficient is not zero. -/
  ne_zero : q.a ≠ zero

/-- The number is a root of the polynomial. -/
def HasRoot (v : Atom → K) (q : Cubic) (x : K) : Prop :=
  ((q.a.value v * x + q.b.value v) * x + q.c.value v) * x + q.d.value v = 0

variable [CharZero K]

theorem value_discriminant (h : v.AdmitsCubicDiscriminant q) :
    q.discriminant.value v =
      CubicRoots.discriminant (q.a.value v) (q.b.value v) (q.c.value v) (q.d.value v) := by
  obtain ⟨hbc, had, hbcbc, hadbc, hadad, hac, hcc, haccc, hbb, hbd, hbbbd⟩ := h
  rw [Cubic.discriminant, value_foldl_add]
  simp only [List.map_cons, List.map_nil, List.sum_cons, List.sum_nil, value_zero, value_scale,
    value_mul hbc, value_mul had, value_mul hbcbc, value_mul hadbc, value_mul hadad, value_mul hac,
    value_mul hcc, value_mul haccc, value_mul hbb, value_mul hbd, value_mul hbbbd,
    CubicRoots.discriminant]
  push_cast
  ring

theorem value_foldl_evaluate {r : Form} {ks : List Form} {start : Form}
    (h : v.AdmitsEvaluate r start ks) :
    (ks.foldl (fun value k => add (mul value r) k) start).value v =
      ks.foldl (fun s k => s * r.value v + k.value v) (start.value v) := by
  induction ks generalizing start with
  | nil => rfl
  | cons k ks ih => rw [List.foldl_cons, List.foldl_cons, ih h.2, value_add, value_mul h.1]

/-- A form at which the polynomial is zero has a root for its value. -/
theorem hasRoot_of_isRoot {r : Form} (h : v.AdmitsEvaluate r zero [q.a, q.b, q.c, q.d])
    (hr : q.isRoot r = true) : q.HasRoot v (r.value v) := by
  have hvalue := value_foldl_evaluate h
  rw [show [q.a, q.b, q.c, q.d].foldl (fun value k => add (mul value r) k) zero = zero from
    isZero_iff.1 hr] at hvalue
  simp only [List.foldl_cons, List.foldl_nil, value_zero] at hvalue
  rw [HasRoot]
  linear_combination -hvalue

/-! ### Simple roots -/

omit [CharZero K] in
theorem valueAt_of_rationalRootOf? {qs : List Rat} {x : Rat} (h : rationalRootOf? qs = some x) :
    valueAt qs x = 0 := by
  rw [rationalRootOf?] at h
  split at h
  · cases h
  · dsimp only at h
    split at h
    · have hfound := List.find?_some h
      simpa using hfound
    · cases h

/-- A rational root is a root. -/
theorem hasRoot_of_rationalRoot? {r : Form} (h : q.rationalRoot? = some r) :
    q.HasRoot v (r.value v) := by
  obtain ⟨x, hx, rfl⟩ := Option.map_eq_some_iff.1 h
  obtain ⟨qs, hqs, hx⟩ := Option.bind_eq_some_iff.1 hx
  have hzero := valueAt_of_rationalRootOf? hx
  simp only [List.mapM_cons, List.mapM_nil, Option.bind_eq_bind, Option.bind_eq_some_iff,
    Option.pure_def, Option.some.injEq] at hqs
  obtain ⟨a, ha, _, ⟨b, hb, _, ⟨c, hc, _, ⟨d, hd, _, rfl, rfl⟩, rfl⟩, rfl⟩, rfl⟩ := hqs
  rw [HasRoot, toRat?_eq_some _ ha, toRat?_eq_some _ hb, toRat?_eq_some _ hc, toRat?_eq_some _ hd,
    value_ofRat]
  simp only [valueAt, List.foldl_cons, List.foldl_nil] at hzero
  have hcast : (((0 * x + a) * x + b) * x + c) * x + d = 0 := hzero
  exact_mod_cast (by linear_combination hcast : ((a * x + b) * x + c) * x + d = 0)

omit [CharZero K] in
/-- A simple root is zero, a rational root, or passes the test; in any case it is a quotient or a
rational number. -/
theorem simpleRoot?_cases {r : Form} (h : q.simpleRoot? = some r) :
    (r = zero ∧ q.d = zero ∨ q.isRoot r = true ∨ q.rationalRoot? = some r) ∧
      ((∃ x, r = ofRat x) ∨ (neg q.d).divide? q.c = some r ∨
        ∃ t ∈ q.b.terms, (neg (ofFactors t.2 t.1.factors)).divide? q.a = some r) := by
  rw [simpleRoot?] at h
  split at h
  · next hd =>
    cases h
    exact ⟨.inl ⟨rfl, isZero_iff.1 hd⟩, .inl ⟨0, rfl⟩⟩
  · split at h
    · next s hs =>
      cases h
      obtain ⟨hs, hroot⟩ := Option.filter_eq_some_iff.1 hs
      exact ⟨.inr (.inl hroot), .inr (.inl hs)⟩
    · split at h
      · next s hs =>
        cases h
        obtain ⟨x, -, rfl⟩ := Option.map_eq_some_iff.1 hs
        exact ⟨.inr (.inr hs), .inl ⟨x, rfl⟩⟩
      · obtain ⟨t, ht, hs⟩ := List.exists_of_findSome?_eq_some h
        obtain ⟨hs, hroot⟩ := Option.filter_eq_some_iff.1 hs
        exact ⟨.inr (.inl hroot), .inr (.inr ⟨t, ht, hs⟩)⟩

theorem hasRoot_of_simpleRoot? {r : Form} (h : q.simpleRoot? = some r)
    (hadmits : v.AdmitsEvaluate r zero [q.a, q.b, q.c, q.d]) : q.HasRoot v (r.value v) := by
  rcases (simpleRoot?_cases h).1 with ⟨rfl, hd⟩ | hroot | hrational
  · rw [HasRoot, hd, value_zero]
    ring
  · exact hasRoot_of_isRoot hadmits hroot
  · exact hasRoot_of_rationalRoot? hrational

omit [CharZero K] in
theorem Reduced.simpleRoot (hq : q.Reduced) {r : Form} (h : q.simpleRoot? = some r) :
    r.UnitReduced ∧ r.NoZeros := by
  rcases (simpleRoot?_cases h).2 with ⟨x, rfl⟩ | hdivide | ⟨t, ht, hdivide⟩
  · exact ⟨unitReduced_ofRat x, noZeros_ofRat x⟩
  · exact ⟨hq.d.neg.divide hq.c hdivide, noZeros_divide? hdivide⟩
  · refine ⟨UnitReduced.divide (UnitReduced.neg ?_) hq.a hdivide, noZeros_divide? hdivide⟩
    exact unitReduced_ofFactors _ (unitReduced_iff.1 hq.b t ht).atoms

/-! ### Roots beside a root -/

omit [CharZero K] in
theorem exists_divide? {f g : Form} (h : g ≠ zero) : ∃ k, f.divide? g = some k := by
  obtain ⟨i, hi⟩ := exists_inverse? h
  exact ⟨_, by rw [divide?, hi]; rfl⟩

/-- A root leaves a quadratic equation, of which the constant is known. -/
theorem exists_quadratic_beside (hq : q.Reduced) {r : Form} (hr : r.UnitReduced ∧ r.NoZeros)
    (hroot : q.HasRoot v (r.value v)) (h : v.AdmitsRootsBeside p q r) :
    ∃ s : Quadratic, q.rootsBeside p r = .exact r :: s.roots p ∧ s.a = q.a ∧ s.Reduced ∧
      v.AdmitsQuadratic p s ∧ ∀ x, q.HasRoot v x ↔ x = r.value v ∨ s.HasRoot v x := by
  obtain ⟨har, hdivide, hquadratic⟩ := h
  -- the constant of the quadratic polynomial, however it is found
  obtain ⟨k, hk, hreduced, hvalue⟩ : ∃ k,
      (if r.isZero then some q.c else (neg q.d).divide? r) = some k ∧ k.UnitReduced ∧
        k.value v = (q.a.value v * r.value v + q.b.value v) * r.value v + q.c.value v := by
    by_cases hzero : r.isZero = true
    · refine ⟨q.c, by rw [if_pos hzero], hq.c, ?_⟩
      rw [isZero_iff.1 hzero, value_zero]
      ring
    · obtain ⟨k, hk⟩ := exists_divide? (f := neg q.d) (g := r) fun h => hzero (isZero_iff.2 h)
      obtain ⟨hmul, hne⟩ := value_divide?_mul hr.2 (hdivide (Bool.eq_false_iff.2 hzero)) hk
      refine ⟨k, by rw [if_neg hzero, hk], hq.d.neg.divide hr.1 hk, mul_right_cancel₀ hne ?_⟩
      rw [HasRoot] at hroot
      rw [value_neg] at hmul
      linear_combination hmul - hroot
  refine ⟨⟨q.a, add q.b (mul q.a r), k⟩, ?_, rfl, ⟨hq.a, hq.b.add (hq.a.mul hr.1), hreduced,
    hq.noZeros⟩, hquadratic k hk, fun x => ?_⟩
  · rw [rootsBeside, hk]
  · rw [HasRoot, CubicRoots.eq_zero_iff_of_root hroot hvalue, Quadratic.HasRoot, value_add,
      value_mul har]

theorem solve_rootsBeside (hq : q.Reduced) {r : Form} (hr : r.UnitReduced ∧ r.NoZeros)
    (hroot : q.HasRoot v (r.value v)) (h : v.AdmitsRootsBeside p q r) :
    Answer.Solve v (q.HasRoot v) (q.rootsBeside p r) ∧
      ∀ x ∈ q.rootsBeside p r, ¬ x.IsApproximate := by
  obtain ⟨s, heq, ha, hs, hadmits, hiff⟩ := exists_quadratic_beside hq hr hroot h
  rw [heq]
  refine ⟨(Quadratic.solve_roots hs hadmits).cons hiff, fun x hx => ?_⟩
  rcases List.mem_cons.1 hx with rfl | hx
  · rintro ⟨z, hz⟩
    cases hz
  · exact Quadratic.not_isApproximate_of_mem_roots (ha ▸ hq.ne_zero) hx

/-! ### Pure equations -/

omit [CharZero K] in
theorem rotation_eq : rotation = ⟨[(⟨[(.imaginaryUnit, 1), (.root 3 2, 1)]⟩, 1 / 2)]⟩ := by
  decide +kernel

theorem value_rotation : rotation.value v = v .imaginaryUnit * v (.root 3 2) / 2 := by
  simp [rotation_eq, value, termsValue_cons, termsValue_nil, Monomial.value,
    Monomial.factorsValue_cons, Monomial.factorsValue_nil]
  ring

theorem solve_pureRoots (hq : q.Reduced) (hb : q.b = zero) (hc : q.c = zero)
    (h : v.AdmitsPureRoots p q) :
    Answer.Solve v (q.HasRoot v) (q.pureRoots p) ∧ ∀ x ∈ q.pureRoots p, ¬ x.IsApproximate := by
  obtain ⟨hdivide, hrest⟩ := h
  obtain ⟨ratio, hratio⟩ := exists_divide? (f := neg q.d) hq.ne_zero
  obtain ⟨hroot, hproducts⟩ := hrest ratio hratio
  obtain ⟨hmul, ha⟩ := value_divide?_mul hq.noZeros hdivide hratio
  rw [pureRoots, hratio]
  dsimp only
  split
  · next r hr =>
    obtain ⟨hplus, hminus⟩ := hproducts r hr
    have hcube := value_root (noZeros_divide? hratio) (hq.d.neg.divide hq.a hratio) (by decide)
      (by decide) (fun _ => hroot) hr
    refine ⟨Answer.solve_of_iff fun x => ?_, by simp [cubeRoots, Answer.IsApproximate]⟩
    have hw : (v .imaginaryUnit * v (.root 3 2)) ^ 2 = -3 := by
      rw [mul_pow, v.imaginaryUnit_sq, v.root_pow (by norm_num) le_rfl]
      norm_num
    have hpower : r.value v ^ 3 * q.a.value v = -q.d.value v := by
      rw [hcube, hmul, value_neg]
    rw [HasRoot, hb, hc, value_zero,
      show ((q.a.value v * x + 0) * x + 0) * x + q.d.value v = q.a.value v * x ^ 3 + q.d.value v by
        ring, CubicRoots.pure_eq_zero_iff ha hpower hw]
    have hvalues : (mul r (add half rotation)).value v =
          r.value v * (-1 / 2 + v .imaginaryUnit * v (.root 3 2) / 2) ∧
        (mul r (sub half rotation)).value v =
          r.value v * (-1 / 2 - v .imaginaryUnit * v (.root 3 2) / 2) := by
      rw [value_mul hplus, value_mul hminus, value_add, value_sub, value_rotation, half, value_ofRat]
      push_cast
      exact ⟨rfl, rfl⟩
    rw [← hvalues.1, ← hvalues.2]
    simp [cubeRoots, half, rotation]
  · exact ⟨Answer.solve_of_forall_ne (by simp) (by simp), by simp [Answer.IsApproximate]⟩

/-! ### Equations without discriminant -/

theorem solve_tripleRoot (hq : q.Reduced) (ha : q.a.value v ≠ 0)
    (hdisc : CubicRoots.discriminant (q.a.value v) (q.b.value v) (q.c.value v) (q.d.value v) = 0)
    (hdelta : q.b.value v * q.b.value v - 3 * (q.a.value v * q.c.value v) = 0)
    (h : v.AdmitsDivide (neg q.b) (q.a.scale 3)) {r : Form}
    (hr : (neg q.b).divide? (q.a.scale 3) = some r) :
    Answer.Solve v (q.HasRoot v) [.exact r] := by
  obtain ⟨hmul, hne⟩ := value_divide?_mul (hq.noZeros.scale 3) h hr
  rw [value_scale] at hmul hne
  push_cast at hmul hne
  refine Answer.solve_of_iff fun x => ?_
  rw [HasRoot, CubicRoots.triple_eq_zero_iff ha hdisc hdelta, ← value_neg, ← hmul,
    mul_div_cancel_right₀ _ hne]
  simp [eq_comm]

theorem solve_doubleRoot (ha : q.a.value v ≠ 0)
    (hdisc : CubicRoots.discriminant (q.a.value v) (q.b.value v) (q.c.value v) (q.d.value v) = 0)
    {delta : Form} (hnoZeros : delta.NoZeros)
    (hdelta : delta.value v =
      q.b.value v * q.b.value v - 3 * (q.a.value v * q.c.value v))
    (h : v.AdmitsDoubleRoot q delta) {r s : Form}
    (hr : (sub ((mul q.a q.d).scale 9) (mul q.b q.c)).divide? (delta.scale 2) = some r)
    (hs : (sub (sub ((mul (mul q.a q.b) q.c).scale 4) ((mul q.a (mul q.a q.d)).scale 9))
      (mul (mul q.b q.b) q.b)).divide? (mul q.a delta) = some s) :
    Answer.Solve v (q.HasRoot v) [.exact r, .exact s] := by
  obtain ⟨had, hbc, hbb, hab, habc, haad, hbbb, hadelta, hdouble, hsimple⟩ := h
  obtain ⟨hdoubleMul, hdoubleNe⟩ := value_divide?_mul (hnoZeros.scale 2) hdouble hr
  obtain ⟨hsimpleMul, hsimpleNe⟩ := value_divide?_mul (noZeros_mul _ _) hsimple hs
  rw [value_scale] at hdoubleMul hdoubleNe
  rw [value_sub, value_scale, value_mul had, value_mul hbc] at hdoubleMul
  rw [value_mul hadelta] at hsimpleMul hsimpleNe
  rw [value_sub, value_sub, value_scale, value_scale, value_mul habc, value_mul haad,
    value_mul had, value_mul hbbb, value_mul hbb, value_mul hab] at hsimpleMul
  push_cast at hdoubleMul hdoubleNe hsimpleMul
  refine Answer.solve_of_iff fun x => ?_
  rw [HasRoot, CubicRoots.double_eq_zero_iff ha hdisc hdelta (right_ne_zero_of_mul hsimpleNe),
    ← hdoubleMul, ← hsimpleMul, mul_div_cancel_right₀ _ hdoubleNe,
    mul_div_cancel_right₀ _ hsimpleNe]
  simp

theorem solve_multipleRoots (hq : q.Reduced) (ha : q.a.value v ≠ 0)
    (hdisc : CubicRoots.discriminant (q.a.value v) (q.b.value v) (q.c.value v) (q.d.value v) = 0)
    (h : v.AdmitsMultipleRoots q) :
    Answer.Solve v (q.HasRoot v) q.multipleRoots ∧
      ∀ x ∈ q.multipleRoots, ¬ x.IsApproximate := by
  obtain ⟨hbb, hac, hrest⟩ := h
  have hdelta : (sub (mul q.b q.b) ((mul q.a q.c).scale 3)).value v =
      q.b.value v * q.b.value v - 3 * (q.a.value v * q.c.value v) := by
    rw [value_sub, value_scale, value_mul hbb, value_mul hac]
    push_cast
    rfl
  have hnoZeros : (sub (mul q.b q.b) ((mul q.a q.c).scale 3)).NoZeros :=
    (noZeros_mul _ _).sub ((noZeros_mul _ _).scale 3)
  rw [multipleRoots]
  dsimp only
  generalize sub (mul q.b q.b) ((mul q.a q.c).scale 3) = delta at hrest hdelta hnoZeros ⊢
  split
  · next hzero =>
    rw [if_pos hzero] at hrest
    rw [isZero_iff.1 hzero, value_zero] at hdelta
    obtain ⟨r, hr⟩ := exists_divide? (f := neg q.b) (scale_ne_zero hq.ne_zero (k := 3) (by decide))
    rw [hr]
    exact ⟨solve_tripleRoot hq ha hdisc hdelta.symm hrest hr,
      by simp [Answer.ofForm?, Answer.IsApproximate]⟩
  · next hnonzero =>
    rw [if_neg hnonzero] at hrest
    have hne : delta ≠ zero := fun h => hnonzero (isZero_iff.2 h)
    obtain ⟨r, hr⟩ := exists_divide? (f := sub ((mul q.a q.d).scale 9) (mul q.b q.c))
      (scale_ne_zero hne (k := 2) (by decide))
    -- the product with the leading coefficient is not zero either
    have hproductNe : mul q.a delta ≠ zero := by
      obtain ⟨-, hdeltaNe⟩ := value_divide?_mul (hnoZeros.scale 2) hrest.double hr
      intro hzero
      have hproduct := value_mul hrest.leading
      rw [hzero, value_zero] at hproduct
      rw [value_scale] at hdeltaNe
      exact mul_ne_zero ha (right_ne_zero_of_mul hdeltaNe) hproduct.symm
    obtain ⟨s, hs⟩ := exists_divide? (f := sub (sub ((mul (mul q.a q.b) q.c).scale 4)
      ((mul q.a (mul q.a q.d)).scale 9)) (mul (mul q.b q.b) q.b)) hproductNe
    rw [hr, hs]
    exact ⟨solve_doubleRoot ha hdisc hnoZeros hdelta hrest hr hs,
      by simp [Answer.ofForm?, Answer.IsApproximate]⟩

/-! ### All cubic equations -/

omit [Field K] [CharZero K] in
theorem numericRoots_ne_nil (p : Preferences) (q : Cubic) : q.numericRoots p ≠ [] := by
  refine List.ne_nil_of_length_pos ?_
  rw [numericRoots, List.length_map]
  split
  · split <;> simp [cardano]
  · simp [cardano]

/-- **Cubic equations**: exact roots are roots, and if all are exact there are no others. -/
theorem solve_roots (hq : q.Reduced) (ha : q.a.value v ≠ 0) (h : v.AdmitsCubic p q) :
    Answer.Solve v (q.HasRoot v) (q.roots p) ∧ Answer.Unmixed (q.roots p) := by
  obtain ⟨hdisc, h⟩ := h
  rw [roots]
  split
  · next hpure =>
    rw [if_pos hpure] at h
    simp only [Bool.and_eq_true, isZero_iff] at hpure
    obtain ⟨hsolve, hexact⟩ := solve_pureRoots hq hpure.1.2 hpure.2 h
    exact ⟨hsolve, .inl hexact⟩
  · next hpure =>
    rw [if_neg hpure] at h
    split
    · next r hr =>
      simp only [hr] at h
      obtain ⟨hsolve, hexact⟩ := solve_rootsBeside hq (hq.simpleRoot hr)
        (hasRoot_of_simpleRoot? hr h.1) h.2
      exact ⟨hsolve, .inl hexact⟩
    · next hr =>
      simp only [hr] at h
      split
      · next hzero =>
        have hvalue := value_discriminant hdisc
        rw [isZero_iff.1 hzero, value_zero] at hvalue
        obtain ⟨hsolve, hexact⟩ := solve_multipleRoots hq ha hvalue.symm (h hzero)
        exact ⟨hsolve, .inl hexact⟩
      · -- all three roots are known in doubles only
        have happroximate : ∀ x ∈ q.numericRoots p, x.IsApproximate := by
          intro x hx
          obtain ⟨z, -, rfl⟩ := List.mem_map.1 hx
          exact ⟨z, rfl⟩
        have hne : q.numericRoots p ≠ [] := numericRoots_ne_nil p q
        refine ⟨Answer.solve_of_forall_ne hne fun f hf => ?_, .inr ⟨hne, happroximate⟩⟩
        obtain ⟨z, hz⟩ := happroximate _ hf
        cases hz

end Cubic

end Resolvent

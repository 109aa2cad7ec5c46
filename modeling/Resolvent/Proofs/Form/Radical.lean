import Resolvent.Form.Radical
import Resolvent.Proofs.Form.Arithmetic
import Resolvent.Proofs.Form.Units

/-!
# Roots of forms

`Form.root` answers roots: the power of the answer with the index has the value of the form
(`Form.value_root`), under any valuation that admits what the root normalises.  What that is depends
on how the root is found, and `Valuation.AdmitsRoot` follows the cases.  Rational numbers need
nothing but the radicals that are left of them where a denominator or the index does not fit a word,
and the square root of `a + bi` needs such radicals to be the roots that they stand for, as their
signs belong together.
-/

namespace Resolvent

variable {K : Type*} [Field K] (v : Valuation K)

/-! ### What a root normalises -/

/-- The positive root of the number stays a radical: a denominator or an index does not fit a
word. -/
def Form.IsOversized (q : Rat) (n : Nat) : Prop :=
  (Width.isInt128 q.den && Width.isInt32 n) = false

/-- The circle number or Euler's number. -/
def Atom.IsRealConstant (a : Atom) : Prop := a = .pi ∨ a = .e

namespace Valuation

/-- The valuation is lawful at the radical that the positive root of a rational number may be. -/
def AdmitsPositiveRoot (q : Rat) (n : Nat) : Prop :=
  Form.IsOversized q n → v.Lawful (.radical (Form.ofRat q) n)

/-- The radical that the positive root of a rational number may be has the value of the root. -/
def AgreesAt (q : Rat) (n : Nat) : Prop :=
  Form.IsOversized q n → v (.radical (Form.ofRat q) n) = v (.root q n)

/-- The valuation admits what the root of a rational number meets. -/
def AdmitsRationalRoot (format : ComplexFormat) (q : Rat) (n : Nat) : Prop :=
  if 0 ≤ q ∨ format = .real ∨ n = 2 ∨ n = 3 then v.AdmitsPositiveRoot (Rational.magnitude q) n
  else v.Lawful (.radical (Form.ofRat q) n)

/-- The valuation admits what the square root of `a + bi` meets, for a rational modulus. -/
def AdmitsSquareRootOfSum (a b : Rat) : Prop :=
  ∀ modulus, (Form.positiveRoot (a * a + b * b) 2).toRat? = some modulus →
    v.AgreesAt ((modulus + a) * (1 / 2)) 2 ∧ v.AgreesAt ((modulus - a) * (1 / 2)) 2

/-- The parts of the square root of `a + bi`, for a rational modulus, belong together: the product of
their values is that of the positive roots that they are. -/
def PairsRoots (a b : Rat) : Prop :=
  ∀ modulus, (Form.positiveRoot (a * a + b * b) 2).toRat? = some modulus →
    (Form.positiveRoot ((modulus + a) * (1 / 2)) 2).value v *
        (Form.positiveRoot ((modulus - a) * (1 / 2)) 2).value v =
      v (.root ((modulus + a) * (1 / 2)) 2) * v (.root ((modulus - a) * (1 / 2)) 2)

/-- The valuation is lawful at the radical in the root of a form that has no simpler one. -/
def AdmitsGeneralRoot (p : Preferences) (f : Form) (n : Nat) : Prop :=
  (Form.generalRoot p f n = .ok (Form.radical f n) → v.Lawful (.radical f n)) ∧
    (Form.generalRoot p f n = .ok (Form.mul (Form.radical (Form.neg f) n) Form.imaginaryUnit) →
      v.Lawful (.radical (Form.neg f) n))

/-- The valuation admits what the root of a form meets that is no rational number, other than a
square root of `a + bi`. -/
def AdmitsOtherRoot (p : Preferences) (f : Form) (n : Nat) : Prop :=
  match f.constantPower? n with
  | some (q, factors) =>
    v.AdmitsRationalRoot p.complexFormat q n ∧ v.AdmitsFactors 1 factors ∧
      ∀ r, Form.rationalRoot p.complexFormat q n = .ok r → v.AdmitsMul r (Form.ofFactors 1 factors)
  | none => v.AdmitsGeneralRoot p f n

/-- The valuation admits what the root of a form meets that is no rational number. -/
def AdmitsIrrationalRoot (p : Preferences) (f : Form) (n : Nat) : Prop :=
  match if n = 2 then f.gaussianParts? else none with
  | none => v.AdmitsOtherRoot p f n
  | some (a, b) =>
    p.complexFormat ≠ .real →
      match Form.squareRootOfSum? a b with
      | some _ => v.AdmitsSquareRootOfSum a b
      | none => v.AdmitsOtherRoot p f n

/-- The valuation admits what the root of a form meets. -/
def AdmitsRoot (p : Preferences) (f : Form) (n : Nat) : Prop :=
  match f.toRat? with
  | some q => v.AdmitsRationalRoot p.complexFormat q n
  | none => v.AdmitsIrrationalRoot p f n

end Valuation

/-! ### Products of different atoms -/

/-- The factors of a monomial are different atoms of a class, each to the first power, at which the
valuation is lawful. -/
structure Valuation.Simple (S : Atom → Prop) (m : Monomial) : Prop where
  /-- No atom occurs twice. -/
  distinct : m.factors.Pairwise fun x y => x.1 ≠ y.1
  /-- The exponents are one. -/
  exponent : ∀ x ∈ m.factors, x.2 = 1
  /-- The atoms are of the class. -/
  mem : ∀ x ∈ m.factors, S x.1
  /-- The valuation is lawful at the atoms. -/
  lawful : ∀ x ∈ m.factors, v.Lawful x.1
  /-- The radicands are stored without zeros. -/
  noZeros : ∀ x ∈ m.factors, x.1.NoZeros

namespace Form

variable {v}

theorem fits_one {a : Atom} (h : v.Lawful a) : Fits (a, 1) := by
  have hrest : ∀ n : Nat, 2 ≤ n → Width.isInt32 ((1 : Int) % n) = true := by
    intro n hn
    rw [Int.emod_eq_of_lt (by omega) (by omega)]
    rfl
  cases a with
  | root q n => exact ⟨rfl, hrest n h.2⟩
  | radical f n => exact ⟨rfl, hrest n h.1⟩
  | _ => rfl

theorem stable_one {a : Atom} (h : v.Lawful a) : Stable (a, 1) := by
  cases a with
  | radical f n =>
    have hn : 2 ≤ n := h.1
    exact Int.ediv_eq_zero_of_lt (by omega) (by omega)
  | reciprocal f => exact fun hneg => absurd hneg (by decide)
  | _ => trivial

/-- A product of simple monomials of disjoint classes is admitted. -/
theorem normalizeWithin_append {S T : Atom → Prop} (hdisjoint : ∀ a, S a → ¬ T a) {m l : Monomial}
    (hm : v.Simple S m) (hl : v.Simple T l) (n : Nat) (c : Rat) :
    NormalizeWithin v.Admits n c (m.factors ++ l.factors) := by
  have hne : (m.factors ++ l.factors).Pairwise fun x y => x.1 ≠ y.1 :=
    List.pairwise_append.2 ⟨hm.distinct, hl.distinct, fun x hx y hy heq =>
      hdisjoint x.1 (hm.mem x hx) (heq ▸ hl.mem y hy)⟩
  have hlawful : ∀ x ∈ m.factors ++ l.factors, v.Lawful x.1 ∧ x.1.NoZeros ∧ x.2 = 1 := by
    intro x hx
    rcases List.mem_append.1 hx with hx | hx
    · exact ⟨hm.lawful x hx, hm.noZeros x hx, hm.exponent x hx⟩
    · exact ⟨hl.lawful x hx, hl.noZeros x hx, hl.exponent x hx⟩
  -- no atom occurs twice, so the exponents stay one
  have hcollected : ∀ x ∈ Monomial.collectFactors (m.factors ++ l.factors),
      v.Lawful x.1 ∧ x = (x.1, 1) := fun x hx =>
    have hx := ((Monomial.mem_collectFactors_of_pairwise hne).1 hx).2
    ⟨(hlawful x hx).1, Prod.ext rfl (hlawful x hx).2.2⟩
  have hadmits : v.Admits (m.factors ++ l.factors) := by
    refine ⟨fun x hx => (hlawful x hx).1, fun x hx => (hlawful x hx).2.1, fun x hx => ?_⟩
    obtain ⟨hlaw, heq⟩ := hcollected x hx
    exact heq ▸ fits_one hlaw
  refine normalizeWithin_of_stable hadmits (fun x hx => ?_) n c
  obtain ⟨hlaw, heq⟩ := hcollected x hx
  exact heq ▸ stable_one hlaw

theorem admitsMul_of_simple {S T : Atom → Prop} (hdisjoint : ∀ a, S a → ¬ T a) {f g : Form}
    (hf : f.MonomialsIn (v.Simple S)) (hg : g.MonomialsIn (v.Simple T)) : v.AdmitsMul f g :=
  fun s hs t ht _ _ => normalizeWithin_append hdisjoint (hf s hs) (hg t ht) _ _

theorem simple_one (S : Atom → Prop) : v.Simple S Monomial.one :=
  ⟨List.Pairwise.nil, nofun, nofun, nofun, nofun⟩

theorem simple_singleton {S : Atom → Prop} {a : Atom} (ha : S a) (hlaw : v.Lawful a)
    (hzeros : a.NoZeros) : v.Simple S ⟨[(a, 1)]⟩ := by
  refine ⟨List.pairwise_singleton _ _, fun x hx => ?_, fun x hx => ?_, fun x hx => ?_,
    fun x hx => ?_⟩ <;> rw [List.mem_singleton.1 hx]
  · exact ha
  · exact hlaw
  · exact hzeros

/-! ### Single atoms -/

theorem unfoldings_eq_succ (d : Nat) : ∃ n, unfoldings d = n + 1 := ⟨4 * d + 15, rfl⟩

theorem ofFactors_radical {f : Form} {n : Nat} (hn : 2 ≤ n) {c : Rat} (hc : c ≠ 0) :
    ofFactors c [(.radical f n, 1)] = ofTerm ⟨[(.radical f n, 1)]⟩ c := by
  have hwhole : (1 : Int) / n = 0 := Int.ediv_eq_zero_of_lt (by omega) (by omega)
  have hrest : (1 : Int) % n = 1 := Int.emod_eq_of_lt (by omega) (by omega)
  have hcollect : Monomial.collectFactors [(Atom.radical f n, 1)] = [(.radical f n, 1)] := by
    simp [Monomial.collectFactors, Monomial.insertFactor]
  obtain ⟨m, hm⟩ := unfoldings_eq_succ (Monomial.depthFactors [(Atom.radical f n, 1)])
  have hparts : shares (powWith (normalize m)) [(.radical f n, 1)] =
      [{ kept := [(.radical f n, 1)], expanded := [one] }] := by
    simp [shares, share, radicalShare, hwhole, hrest, powWith_zero, rootIndices, Width.clamp32]
  have hone : one.isOne = true := by simp [isOne, one, toRat?_ofRat]
  rw [ofFactors, hm, normalize, normalizeWith_eq _ _ hc, hcollect, hparts]
  simp [sharedTerm, sharedCoefficient, hone, mulWith_one_one, hcollect]

theorem ofFactors_root {q : Rat} {n : Nat} (hn : 2 ≤ n)
    (hextract : PerfectPower.extract q n = (1, q)) (hone : q ≠ 1) {c : Rat} (hc : c ≠ 0) :
    ofFactors c [(.root q n, 1)] = ofTerm ⟨[(.root q n, 1)]⟩ c := by
  have hwhole : (1 : Int) / n = 0 := Int.ediv_eq_zero_of_lt (by omega) (by omega)
  have hrest : (1 : Int) % n = 1 := Int.emod_eq_of_lt (by omega) (by omega)
  have hcollect : Monomial.collectFactors [(Atom.root q n, 1)] = [(.root q n, 1)] := by
    simp [Monomial.collectFactors, Monomial.insertFactor]
  have hradicands : radicandsOf n [(.root q n, 1)] = [(q, 1)] := by simp [radicandsOf]
  obtain ⟨m, hm⟩ := unfoldings_eq_succ (Monomial.depthFactors [(Atom.root q n, 1)])
  have hparts : shares (powWith (normalize m)) [(.root q n, 1)] =
      [{}, { kept := [(.root q n, 1)] }] := by
    simp [shares, share, rootIndices, insertIndex, rootShare, hradicands, wholePower, restPower,
      hwhole, hrest, Width.isInt32, hextract, hone, Rational.power?, Rat.pow]
  have hisOne : one.isOne = true := by simp [isOne, one, toRat?_ofRat]
  rw [ofFactors, hm, normalize, normalizeWith_eq _ _ hc, hcollect, hparts]
  simp [sharedTerm, sharedCoefficient, hisOne, hcollect]

theorem radical_eq {f : Form} {n : Nat} (hn : 2 ≤ n) :
    radical f n = ⟨[(⟨[(.radical f n, 1)]⟩, 1)]⟩ := by
  rw [radical, ofAtom, ofFactors_radical hn one_ne_zero, ofTerm, if_neg one_ne_zero]

theorem value_radical {f : Form} {n : Nat} (hn : 2 ≤ n) :
    (radical f n).value v = v (.radical f n) := by
  simp [radical_eq hn, value, termsValue_cons, termsValue_nil, Monomial.value,
    Monomial.factorsValue_cons, Monomial.factorsValue_nil]

theorem imaginaryUnit_eq : imaginaryUnit = ⟨[(⟨[(.imaginaryUnit, 1)]⟩, 1)]⟩ := by decide +kernel

theorem value_imaginaryUnit : imaginaryUnit.value v = v .imaginaryUnit := by
  simp [imaginaryUnit_eq, value, termsValue_cons, termsValue_nil, Monomial.value,
    Monomial.factorsValue_cons, Monomial.factorsValue_nil]

/-! ### Roots of rational numbers -/

section Rational

variable {q : Rat} {n : Nat}

/-- The positive root of a rational number is a rational number, the multiple of a root, or a
radical. -/
theorem positiveRoot_cases (hq : 0 < q) (hn : 2 ≤ n) :
    (IsOversized q n ∧ positiveRoot q n = radical (ofRat q) n) ∨
      ¬ IsOversized q n ∧ ∃ t u : Rat, 0 < t ∧ 0 < u ∧ t ^ n * u = q ∧
        (u = 1 ∧ positiveRoot q n = ofRat t ∨
          positiveRoot q n = ofTerm ⟨[(.root u n, 1)]⟩ t) := by
  unfold IsOversized
  rcases hfits : (Width.isInt128 q.den && Width.isInt32 n) with - | -
  · exact .inl ⟨rfl, by rw [positiveRoot, hfits]; rfl⟩
  · have hden : (0 : Rat) < q.den := by exact_mod_cast q.den_pos
    have hpos : 0 < q * Rat.pow q.den n := mul_pos hq (pow_pos hden n)
    obtain ⟨hpow, ht, hu⟩ := PerfectPower.extractWith_factorization PerfectPower.estimate hpos n
    have hagain := PerfectPower.extractWith_extractWith PerfectPower.estimate
      (q * Rat.pow q.den n) n
    rw [show PerfectPower.extractWith PerfectPower.estimate (q * Rat.pow q.den n) n =
      PerfectPower.extract (q * Rat.pow q.den n) n from rfl] at hpow ht hu hagain
    refine .inr ⟨by simp, _, _, div_pos ht hden, hu, ?_, ?_⟩
    · have hpow' : (PerfectPower.extract (q * Rat.pow q.den n) n).1 ^ n *
          (PerfectPower.extract (q * Rat.pow q.den n) n).2 = q * (q.den : Rat) ^ n := hpow
      rw [div_pow, div_mul_eq_mul_div, hpow', mul_div_cancel_right₀ _ (pow_pos hden n).ne']
    · rw [positiveRoot, hfits, if_pos rfl]
      dsimp only
      split
      · next hone => exact .inl ⟨hone, rfl⟩
      · next hone => exact .inr (ofFactors_root hn hagain hone (div_pos ht hden).ne')

variable [CharZero K]

omit [CharZero K] in
theorem noZeros_ofRat (q : Rat) : (ofRat q).NoZeros := over_ofRat trivial q

theorem admitsPositiveRoot_of_agreesAt (hq : 0 < q) (hn : 2 ≤ n) (h : v.AgreesAt q n) :
    v.AdmitsPositiveRoot q n := by
  intro hover
  have hvalue := h hover
  refine ⟨hn, ?_, ?_⟩ <;> rw [hvalue]
  · exact v.root_ne_zero hq hn
  · rw [v.root_pow hq hn, value_ofRat]

/-- The power of a positive root is the number. -/
theorem value_positiveRoot_pow (hq : 0 < q) (hn : 2 ≤ n) (h : v.AdmitsPositiveRoot q n) :
    (positiveRoot q n).value v ^ n = q := by
  rcases positiveRoot_cases hq hn with ⟨hover, heq⟩ | ⟨-, t, u, ht, hu, hpow, ⟨rfl, heq⟩ | heq⟩
  · rw [heq, value_radical hn, (h hover).2.2, value_ofRat]
  · rw [heq, value_ofRat, ← hpow, mul_one, Rat.cast_pow]
  · rw [heq, value_ofTerm, Monomial.value, Monomial.factorsValue_cons, Monomial.factorsValue_nil,
      zpow_one, mul_one, mul_pow, v.root_pow hu hn, ← hpow, Rat.cast_mul, Rat.cast_pow]

omit [CharZero K] in
/-- A positive root has the value of the root. -/
theorem value_positiveRoot (hq : 0 < q) (hn : 2 ≤ n) (h : v.AgreesAt q n) :
    (positiveRoot q n).value v = v (.root q n) := by
  rcases positiveRoot_cases hq hn with ⟨hover, heq⟩ | ⟨-, t, u, ht, hu, hpow, ⟨rfl, heq⟩ | heq⟩
  · rw [heq, value_radical hn, h hover]
  · rw [heq, value_ofRat, ← hpow, mul_one, v.root_of_pow ht hn]
  · rw [heq, value_ofTerm, Monomial.value, Monomial.factorsValue_cons, Monomial.factorsValue_nil,
      zpow_one, mul_one, ← hpow, v.root_pow_mul ht hu hn]

omit [CharZero K] in
/-- A positive root is a multiple of a simple monomial. -/
theorem monomialsIn_positiveRoot (hq : 0 < q) (hn : 2 ≤ n) (h : v.AdmitsPositiveRoot q n) :
    (positiveRoot q n).MonomialsIn
      (v.Simple fun a => (∃ u, a = .root u n) ∨ ∃ f, a = .radical f n) := by
  rcases positiveRoot_cases hq hn with ⟨hover, heq⟩ | ⟨-, t, u, ht, hu, hpow, ⟨rfl, heq⟩ | heq⟩
  · rw [heq, radical_eq hn]
    intro s hs
    rw [List.mem_singleton.1 hs]
    exact simple_singleton (.inr ⟨_, rfl⟩) (h hover) (noZeros_ofRat q)
  · rw [heq]
    exact monomialsIn_ofRat (simple_one _) t
  · have hlaw : v.Lawful (.root u n) := ⟨hu, hn⟩
    rw [heq]
    exact monomialsIn_ofTerm (simple_singleton (.inl ⟨u, rfl⟩) hlaw trivial) t

omit [CharZero K] in
theorem monomialsIn_imaginaryUnit :
    imaginaryUnit.MonomialsIn (v.Simple (· = .imaginaryUnit)) := by
  rw [imaginaryUnit_eq]
  intro t ht
  rw [List.mem_singleton.1 ht]
  exact simple_singleton rfl v.imaginaryUnit_ne_zero trivial

/-- The multiple of a positive root by the imaginary unit is their product. -/
theorem value_mul_imaginaryUnit {f : Form}
    (hf : f.MonomialsIn (v.Simple fun a => (∃ u, a = .root u n) ∨ ∃ g, a = .radical g n)) :
    (mul f imaginaryUnit).value v = f.value v * v .imaginaryUnit := by
  have hadmits : v.AdmitsMul f imaginaryUnit :=
    admitsMul_of_simple (by rintro a (⟨u, rfl⟩ | ⟨g, rfl⟩) <;> nofun) hf monomialsIn_imaginaryUnit
  rw [value_mul hadmits, value_imaginaryUnit]

theorem sixthTurn_eq : sixthTurn =
    ⟨[(⟨[]⟩, 1 / 2), (⟨[(.imaginaryUnit, 1), (.root 3 2, 1)]⟩, 1 / 2)]⟩ := by decide +kernel

theorem value_sixthTurn_pow : sixthTurn.value v ^ 3 = -1 := by
  have hroot := v.root_pow (q := 3) (n := 2) (by norm_num) le_rfl
  have hunit := v.imaginaryUnit_sq
  have hvalue : sixthTurn.value v = 1 / 2 + 1 / 2 * (v .imaginaryUnit * v (.root 3 2)) := by
    simp [sixthTurn_eq, value, termsValue_cons, termsValue_nil, Monomial.value,
      Monomial.factorsValue_cons, Monomial.factorsValue_nil]
  have hproduct : (v .imaginaryUnit * v (.root 3 2)) ^ 2 = -3 := by
    rw [mul_pow, hunit, hroot]
    norm_num
  rw [hvalue]
  linear_combination (3 + v .imaginaryUnit * v (.root 3 2)) / 8 * hproduct

omit [CharZero K] in
theorem monomialsIn_sixthTurn :
    sixthTurn.MonomialsIn (v.Simple fun a => a = .imaginaryUnit ∨ a = .root 3 2) := by
  have hroot : v.Lawful (.root 3 2) := ⟨by norm_num, le_rfl⟩
  rw [sixthTurn_eq]
  intro t ht
  rcases List.mem_cons.1 ht with rfl | ht
  · exact simple_one _
  · rw [List.mem_singleton.1 ht]
    refine ⟨by simp, by simp, by simp, fun x hx => ?_, fun x hx => ?_⟩ <;>
      rcases List.mem_cons.1 hx with rfl | hx
    · exact v.imaginaryUnit_ne_zero
    · rw [List.mem_singleton.1 hx]
      exact hroot
    · trivial
    · rw [List.mem_singleton.1 hx]
      trivial

/-- The multiple of a positive root by the cube root of minus one is their product. -/
theorem value_mul_sixthTurn {f : Form}
    (hf : f.MonomialsIn (v.Simple fun a => (∃ u, a = .root u 3) ∨ ∃ g, a = .radical g 3)) :
    (mul f sixthTurn).value v = f.value v * sixthTurn.value v :=
  value_mul (admitsMul_of_simple (by rintro a (⟨u, rfl⟩ | ⟨g, rfl⟩) <;> simp) hf
    monomialsIn_sixthTurn)

theorem pos_magnitude (hq : q ≠ 0) : 0 < Rational.magnitude q := by
  unfold Rational.magnitude
  split
  · next hneg => exact neg_pos.2 hneg
  · next hneg => exact lt_of_le_of_ne (not_lt.1 hneg) hq.symm

theorem root_ofRat {p : Preferences} (hq : q ≠ 0) (hn : 2 ≤ n) :
    root p (ofRat q) n = rationalRoot p.complexFormat q n := by
  have hzero : (ofRat q).isZero = false := by simp [ofRat, isZero, hq]
  rw [root, hzero, if_neg (by simp; omega), toRat?_ofRat]

/-- The root of a rational number is a root. -/
theorem value_rationalRoot {format : ComplexFormat} {r : Form} (hq : q ≠ 0) (hn : 2 ≤ n)
    (h : v.AdmitsRationalRoot format q n) (hr : rationalRoot format q n = .ok r) :
    r.value v ^ n = q := by
  unfold Valuation.AdmitsRationalRoot at h
  have hpos := pos_magnitude hq
  rw [rationalRoot] at hr
  split at hr
  · next hnonneg =>
    cases hr
    rw [if_pos (.inl hnonneg)] at h
    rw [value_positiveRoot_pow hpos hn h, Rational.magnitude_of_nonneg (not_lt.2 hnonneg)]
  · next hneg =>
    have hmagnitude : Rational.magnitude q = -q := by
      rw [Rational.magnitude, if_pos (not_le.1 hneg)]
    split at hr
    · next hreal =>
      rw [if_pos (.inr (.inl hreal))] at h
      split at hr
      · next hodd =>
        cases hr
        rw [value_neg, (Nat.odd_iff.2 hodd).neg_pow, value_positiveRoot_pow hpos hn h, hmagnitude]
        push_cast
        ring
      · cases hr
    · split at hr
      · next htwo =>
        subst htwo
        cases hr
        rw [if_pos (.inr (.inr (.inl rfl)))] at h
        rw [value_mul_imaginaryUnit (monomialsIn_positiveRoot hpos hn h), mul_pow,
          value_positiveRoot_pow hpos hn h, v.imaginaryUnit_sq, hmagnitude]
        push_cast
        ring
      · split at hr
        · next hthree =>
          subst hthree
          cases hr
          rw [if_pos (.inr (.inr (.inr rfl)))] at h
          rw [value_mul_sixthTurn (monomialsIn_positiveRoot hpos hn h), mul_pow,
            value_positiveRoot_pow hpos hn h, value_sixthTurn_pow, hmagnitude]
          push_cast
          ring
        · next hreal htwo hthree =>
          cases hr
          rw [if_neg (by simp [hneg, hreal, htwo, hthree])] at h
          rw [value_radical hn, h.2.2, value_ofRat]

omit [CharZero K] in
theorem pow_of_toRat?_positiveRoot {t : Rat} (hq : 0 < q) (hn : 2 ≤ n)
    (h : (positiveRoot q n).toRat? = some t) : 0 < t ∧ t ^ n = q := by
  rcases positiveRoot_cases hq hn with ⟨-, heq⟩ | ⟨-, t', u, ht, hu, hpow, ⟨rfl, heq⟩ | heq⟩
  · rw [heq, radical_eq hn] at h
    cases h
  · rw [heq, toRat?_ofRat] at h
    cases h
    exact ⟨ht, by rwa [mul_one] at hpow⟩
  · rw [heq, ofTerm, if_neg ht.ne'] at h
    cases h

end Rational

/-! ### Square roots of `a + bi` -/

/-- The modulus of a number that is not real is larger than its real part. -/
theorem abs_lt_of_toRat?_positiveRoot {a b modulus : Rat} (hb : b ≠ 0)
    (h : (positiveRoot (a * a + b * b) 2).toRat? = some modulus) :
    modulus ^ 2 = a ^ 2 + b ^ 2 ∧ |a| < modulus := by
  obtain ⟨hpos, hpow⟩ := pow_of_toRat?_positiveRoot
    (add_pos_of_nonneg_of_pos (mul_self_nonneg a) (mul_self_pos.2 hb)) le_rfl h
  have hsq : modulus ^ 2 = a ^ 2 + b ^ 2 := by rw [hpow]; ring
  refine ⟨hsq, abs_lt_of_sq_lt_sq ?_ hpos.le⟩
  have := pow_pos (abs_pos.2 hb) 2
  rw [sq_abs] at this
  linarith

/-- Two positive numbers with the product `b ^ 2 / 4` have roots with the product `|b| / 2`. -/
theorem root_mul_root_eq_abs {x y b : Rat} (hx : 0 < x) (hy : 0 < y) (hb : b ≠ 0)
    (hproduct : x * y = b ^ 2 / 4) : v (.root x 2) * v (.root y 2) = (|b| / 2 : Rat) := by
  have hpos : 0 < |b| / 2 := by positivity
  rw [← v.root_mul hx hy le_rfl, ← v.root_of_pow hpos le_rfl]
  congr 2
  rw [hproduct, div_pow, sq_abs]
  norm_num

/-- The parts of the square root of a number that is not real are roots of positive numbers. -/
theorem pos_parts_of_toRat?_positiveRoot {a b modulus : Rat} (hb : b ≠ 0)
    (h : (positiveRoot (a * a + b * b) 2).toRat? = some modulus) :
    0 < (modulus + a) * (1 / 2) ∧ 0 < (modulus - a) * (1 / 2) := by
  obtain ⟨hlow, hhigh⟩ := abs_lt.1 (abs_lt_of_toRat?_positiveRoot hb h).2
  exact ⟨by linarith, by linarith⟩

variable [CharZero K]

/-- A number with parts whose squares are half the sum and half the difference of `m` and `a` is a
square root of `a + bi` exactly if the product of its parts is half of `b`, up to the sign. -/
theorem sq_parts_eq_iff {re im m a b s : K} (hre : re ^ 2 = (m + a) * (1 / 2))
    (him : im ^ 2 = (m - a) * (1 / 2)) (hs : s ^ 2 = 1) :
    (re + s * im * v .imaginaryUnit) ^ 2 = a + b * v .imaginaryUnit ↔ re * im = s * b / 2 := by
  have hunit := v.imaginaryUnit_sq
  have hsNe : s ≠ 0 := by
    rintro rfl
    simp at hs
  have hsquare : (re + s * im * v .imaginaryUnit) ^ 2 = a + 2 * s * (re * im) * v .imaginaryUnit := by
    linear_combination hre - him + s ^ 2 * im ^ 2 * hunit - im ^ 2 * hs
  rw [hsquare, add_right_inj, mul_left_inj' v.imaginaryUnit_ne_zero]
  constructor
  · intro h
    refine mul_left_cancel₀ (mul_ne_zero two_ne_zero hsNe) ?_
    linear_combination h - b * hs
  · intro h
    linear_combination 2 * s * h + b * hs

/-- The square root of `a + bi` is one exactly if the signs of its parts belong together. -/
theorem value_squareRootOfSum?_iff {a b : Rat} {r : Form} (hb : b ≠ 0)
    (h : ∀ modulus, (positiveRoot (a * a + b * b) 2).toRat? = some modulus →
      v.AdmitsPositiveRoot ((modulus + a) * (1 / 2)) 2 ∧
        v.AdmitsPositiveRoot ((modulus - a) * (1 / 2)) 2)
    (hr : squareRootOfSum? a b = some r) :
    r.value v ^ 2 = a + b * v .imaginaryUnit ↔ v.PairsRoots a b := by
  rw [squareRootOfSum?] at hr
  split at hr
  · cases hr
  · next modulus hmodulus =>
    obtain ⟨hre, him⟩ := h modulus hmodulus
    have hsq := (abs_lt_of_toRat?_positiveRoot hb hmodulus).1
    obtain ⟨hx, hy⟩ := pos_parts_of_toRat?_positiveRoot hb hmodulus
    have hroots := root_mul_root_eq_abs (v := v) hx hy hb (by linear_combination hsq / 4)
    have hpairs : v.PairsRoots a b ↔ (positiveRoot ((modulus + a) * (1 / 2)) 2).value v *
        (positiveRoot ((modulus - a) * (1 / 2)) 2).value v = (|b| / 2 : Rat) := by
      rw [← hroots]
      exact ⟨fun h => h modulus hmodulus,
        fun h m hm => by rwa [← Option.some.inj (hmodulus.symm.trans hm)]⟩
    have hxsq := value_positiveRoot_pow hx le_rfl hre
    have hysq := value_positiveRoot_pow hy le_rfl him
    push_cast at hxsq hysq
    have himMonomials := monomialsIn_positiveRoot hy le_rfl him
    dsimp only at hr
    cases hr
    rw [hpairs, value_add]
    split
    · next hneg =>
      have hiff := sq_parts_eq_iff (v := v) (b := (b : K)) hxsq hysq (neg_one_sq)
      rw [neg_one_mul, neg_one_mul] at hiff
      rw [value_mul_imaginaryUnit himMonomials.neg, value_neg, hiff, abs_of_neg hneg]
      push_cast
      rfl
    · next hpos =>
      have hiff := sq_parts_eq_iff (v := v) (b := (b : K)) hxsq hysq (one_pow 2)
      rw [one_mul, one_mul] at hiff
      rw [value_mul_imaginaryUnit himMonomials, hiff, abs_of_nonneg (not_lt.1 hpos)]
      push_cast
      rfl

omit [CharZero K] in
/-- Radicals that are the positive roots that they stand for belong together. -/
theorem pairsRoots_of_admits {a b : Rat} (hb : b ≠ 0) (h : v.AdmitsSquareRootOfSum a b) :
    v.PairsRoots a b := by
  intro modulus hmodulus
  obtain ⟨hx, hy⟩ := pos_parts_of_toRat?_positiveRoot hb hmodulus
  obtain ⟨hre, him⟩ := h modulus hmodulus
  rw [value_positiveRoot hx le_rfl hre, value_positiveRoot hy le_rfl him]

/-- The square root of `a + bi` is one. -/
theorem value_squareRootOfSum? {a b : Rat} {r : Form} (hb : b ≠ 0)
    (h : v.AdmitsSquareRootOfSum a b) (hr : squareRootOfSum? a b = some r) :
    r.value v ^ 2 = a + b * v .imaginaryUnit := by
  refine (value_squareRootOfSum?_iff hb (fun modulus hmodulus => ?_) hr).2
    (pairsRoots_of_admits hb h)
  obtain ⟨hx, hy⟩ := pos_parts_of_toRat?_positiveRoot hb hmodulus
  obtain ⟨hre, him⟩ := h modulus hmodulus
  exact ⟨admitsPositiveRoot_of_agreesAt hx le_rfl hre, admitsPositiveRoot_of_agreesAt hy le_rfl him⟩

/-- The parts of a number that is not real are its real and its imaginary part. -/
theorem value_of_gaussianParts? {f : Form} {a b : Rat} (hf : f.UnitReduced)
    (h : f.gaussianParts? = some (a, b)) : b ≠ 0 ∧ f.value v = a + b * v .imaginaryUnit := by
  rw [gaussianParts?] at h
  split at h
  · cases h
  · next re im hsplit =>
    unfold splitComplex? at hsplit
    split at hsplit
    · obtain ⟨rfl, rfl⟩ := Prod.mk.inj (Option.some.inj hsplit)
      split at h
      · next a' b' hre him =>
        split at h
        · cases h
        · next hb =>
          cases h
          rw [hf.value_split, toRat?_eq_some _ hre, toRat?_eq_some _ him]
          exact ⟨hb, rfl⟩
      · cases h
    · cases hsplit

/-! ### Roots of other forms -/

/-- A root of a form that has no simpler one is a radical of it, or, where the double is negative,
the multiple by the imaginary unit of a square root of its opposite. -/
theorem generalRoot_cases {p : Preferences} {f r : Form} {n : Nat}
    (h : generalRoot p f n = .ok r) :
    r = radical f n ∨ n = 2 ∧ r = mul (radical (neg f) n) imaginaryUnit ∧
      (f.constantValue p.angleUnit).re < 0.0 := by
  rw [generalRoot] at h
  dsimp only at h
  split at h
  · cases h
    exact .inl rfl
  · split at h
    · next hneg =>
      split at h
      · cases h
      · split at h
        · next htwo =>
          cases h
          rw [Bool.and_eq_true, Bool.and_eq_true, decide_eq_true_eq] at hneg
          exact .inr ⟨htwo, rfl, hneg.1.2⟩
        · cases h
          exact .inl rfl
    · split at h
      · cases h
      · cases h
        exact .inl rfl

theorem value_generalRoot {p : Preferences} {f r : Form} {n : Nat} (hf : f.NoZeros) (hn : 2 ≤ n)
    (h : v.AdmitsGeneralRoot p f n) (hr : generalRoot p f n = .ok r) :
    r.value v ^ n = f.value v := by
  rcases generalRoot_cases hr with rfl | ⟨rfl, rfl, -⟩
  · rw [value_radical hn, (h.1 hr).2.2]
  · have hlaw := h.2 hr
    have hmonomials : (radical (neg f) 2).MonomialsIn
        (v.Simple fun a => (∃ u, a = .root u 2) ∨ ∃ g, a = .radical g 2) := by
      rw [radical_eq hn]
      intro t ht
      rw [List.mem_singleton.1 ht]
      exact simple_singleton (.inr ⟨_, rfl⟩) hlaw hf.neg
    rw [value_mul_imaginaryUnit hmonomials, mul_pow, v.imaginaryUnit_sq, value_radical hn,
      hlaw.2.2, value_neg]
    ring

omit [CharZero K] in
/-- A power of constants is a single term of constants whose exponents the index divides. -/
theorem constantPower?_eq_some {f : Form} {n : Nat} {q : Rat} {factors : List (Atom × Int)}
    (h : f.constantPower? n = some (q, factors)) :
    ∃ m : Monomial, f.singleTerm? = some (m, q) ∧
      (factors = m.factors.map fun x => (x.1, x.2 / Width.clamp32 n)) ∧
      ∀ x ∈ m.factors, x.1.IsRealConstant ∧ Width.clamp32 n ∣ x.2 := by
  unfold constantPower? at h
  split at h
  · next m q' hsingle =>
    split at h
    · next hall =>
      cases h
      refine ⟨m, hsingle, rfl, fun x hx => ?_⟩
      obtain ⟨a, k⟩ := x
      have hx := List.all_eq_true.1 hall _ hx
      cases a with
      | pi => exact ⟨.inl rfl, Int.dvd_of_emod_eq_zero (by simpa [isPerfectPower] using hx)⟩
      | e => exact ⟨.inr rfl, Int.dvd_of_emod_eq_zero (by simpa [isPerfectPower] using hx)⟩
      | _ => cases hx
    · cases h
  · cases h

omit [CharZero K] in
/-- A power of constants is the power of the root that is taken of it. -/
theorem value_constantPower? {f : Form} {n : Nat} {q : Rat} {factors : List (Atom × Int)}
    (hword : n ≤ 2147483647) (h : f.constantPower? n = some (q, factors)) :
    f.value v = q * Monomial.factorsValue v factors ^ n ∧ ∃ m, f.singleTerm? = some (m, q) := by
  have hclamp : Width.clamp32 n = n := Width.clamp32_of_mem (by omega) (by omega)
  obtain ⟨m, hsingle, rfl, hconstants⟩ := constantPower?_eq_some h
  refine ⟨?_, m, hsingle⟩
  rw [value_singleTerm _ hsingle, Monomial.value]
  congr 1
  rw [hclamp] at hconstants ⊢
  generalize m.factors = factors at hconstants
  induction factors with
  | nil => simp [Monomial.factorsValue_nil]
  | cons x factors ih =>
    rw [List.map_cons, Monomial.factorsValue_cons, Monomial.factorsValue_cons, mul_pow,
      ih fun y hy => hconstants y (List.mem_cons_of_mem _ hy)]
    congr 1
    rw [← zpow_natCast, ← zpow_mul, Int.ediv_mul_cancel (hconstants x List.mem_cons_self).2]

theorem value_otherRoot {p : Preferences} {f r : Form} {n : Nat} (hf : f.NoZeros) (hn : 2 ≤ n)
    (hword : n ≤ 2147483647) (h : v.AdmitsOtherRoot p f n) (hr : otherRoot p f n = .ok r) :
    r.value v ^ n = f.value v := by
  unfold Valuation.AdmitsOtherRoot at h
  rw [otherRoot] at hr
  split at hr
  · next q factors hpower =>
    simp only [hpower] at h
    obtain ⟨hrational, hfactors, hmul⟩ := h
    obtain ⟨hvalue, m, hsingle⟩ := value_constantPower? (v := v) hword hpower
    have hq : q ≠ 0 := (hf (m, q) (by simp [terms_of_singleTerm? hsingle])).1
    rcases hs : rationalRoot p.complexFormat q n with e | s <;> rw [hs] at hr <;> cases hr
    rw [value_mul (hmul s hs), value_ofFactors hfactors, mul_pow,
      value_rationalRoot hq hn hrational hs, hvalue, Rat.cast_one, one_mul]
  · next hpower =>
    simp only [hpower] at h
    exact value_generalRoot hf hn h hr

theorem value_irrationalRoot {p : Preferences} {f r : Form} {n : Nat} (hf : f.NoZeros)
    (hunit : f.UnitReduced) (hn : 2 ≤ n) (hword : n ≤ 2147483647)
    (h : v.AdmitsIrrationalRoot p f n) (hr : irrationalRoot p f n = .ok r) : r.value v ^ n = f.value v := by
  unfold Valuation.AdmitsIrrationalRoot at h
  rw [irrationalRoot] at hr
  split at hr
  · next hparts =>
    simp only [hparts] at h
    exact value_otherRoot hf hn hword h hr
  · next a b hparts =>
    simp only [hparts] at h
    split at hr
    · cases hr
    · next hformat =>
      have h := h hformat
      have htwo : n = 2 ∧ f.gaussianParts? = some (a, b) := by
        split at hparts
        · next htwo => exact ⟨htwo, hparts⟩
        · cases hparts
      obtain ⟨rfl, hparts⟩ := htwo
      obtain ⟨hb, hvalue⟩ := value_of_gaussianParts? (v := v) hunit hparts
      split at hr
      · next s hs =>
        simp only [hs] at h
        cases hr
        rw [value_squareRootOfSum? hb h hs, hvalue]
      · next hs =>
        simp only [hs] at h
        exact value_otherRoot hf hn hword h hr

theorem eq_ofRat_of_toRat? {f : Form} {q : Rat} (hf : f.NoZeros) (h : f.toRat? = some q) :
    f = ofRat q := by
  obtain ⟨terms⟩ := f
  unfold toRat? at h
  dsimp only at h
  split at h
  · cases h
    exact ofRat_zero.symm
  · next m c =>
    split at h
    · next hone =>
      cases h
      have hc : q ≠ 0 := (hf (m, q) List.mem_cons_self).1
      have hm : m = Monomial.one := by
        obtain ⟨factors⟩ := m
        exact congrArg Monomial.mk (List.isEmpty_iff.1 hone)
      rw [hm, ofRat, if_neg hc]
    · cases h
  · cases h

theorem ne_zero_of_toRat? {f : Form} {q : Rat} (hf : f.NoZeros) (hne : f ≠ zero)
    (h : f.toRat? = some q) : q ≠ 0 := by
  rintro rfl
  exact hne ((eq_ofRat_of_toRat? hf h).trans ofRat_zero)

/-- **Roots are roots**: the power of the root of a form with the index has the value of the form.
Larger indices than a signed word holds are left out, as they are not what exponents of constants are
divided by. -/
theorem value_root {p : Preferences} {f r : Form} {n : Nat} (hf : f.NoZeros)
    (hunit : f.UnitReduced) (hn : 2 ≤ n) (hword : n ≤ 2147483647)
    (h : f ≠ zero → v.AdmitsRoot p f n) (hr : root p f n = .ok r) : r.value v ^ n = f.value v := by
  rw [root] at hr
  split at hr
  · next hzero =>
    have hzero : f = zero := by
      rcases Bool.or_eq_true _ _ ▸ hzero with hlow | hzero
      · exact absurd (of_decide_eq_true hlow) (by omega)
      · exact isZero_iff.1 hzero
    cases hr
    rw [hzero, value_zero, zero_pow (by omega)]
  · next hne =>
    have hzero : f ≠ zero := by
      rintro rfl
      simp [isZero, zero] at hne
    have h := h hzero
    unfold Valuation.AdmitsRoot at h
    split at hr
    · next q hq =>
      simp only [hq] at h
      rw [toRat?_eq_some v hq]
      exact value_rationalRoot (ne_zero_of_toRat? hf hzero hq) hn h hr
    · next hq =>
      simp only [hq] at h
      exact value_irrationalRoot hf hunit hn hword h hr

end Form

end Resolvent

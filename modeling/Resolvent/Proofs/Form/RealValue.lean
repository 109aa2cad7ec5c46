import Resolvent.Form.Approximation
import Resolvent.Numeric.Functions
import Resolvent.Numeric.Complex
import Resolvent.Proofs.Form.Monomials
import Resolvent.Proofs.Form.Valuation

/-!
# Forms that are known to be real

The imaginary part of a real number is zero, and arithmetic with infinities may make it no number,
but nothing else: such doubles are null (`Double.IsNull`).  A product with a null double is null, so
sums, products, inverses and powers of complex numbers on the real line stay on it
(`Complex.OnRealLine`).  A finite one has the imaginary part zero, and rounding keeps it
(`Complex.OnRealLine.round_im`).

Whether a form is real is read off its atoms.  An odd radical of what is known to be real counts as
real, and it is as long as the radicand is not negative, since a radical has its principal value.

A form whose atoms are known to be real is never shown as unreal.  If its radicands are not negative
and it is shown as a number, then its value is real, and the imaginary part of the number is zero
(`Rendition.ofForm_of_isKnownReal`).
-/

namespace Resolvent

open Float.Model (UnpackedFloat Format)
open Float.Model.UnpackedFloat (Sign)

/-! ### Null doubles -/

namespace Double

/-- The double is zero, or the number that is none. -/
def IsNull (x : Float) : Prop :=
  (∃ s, x.toModel.unpack = .zero s) ∨ x.toModel.unpack = .notANumber

variable {x y : Float}

theorem isNull_pack_zero (s : Sign) : IsNull ⟨Float.Model.pack (.zero s)⟩ :=
  .inl ⟨s, by cases s <;> rfl⟩

theorem isNull_pack_notANumber : IsNull ⟨Float.Model.pack .notANumber⟩ := .inr rfl

theorem isNull_zero : IsNull 0.0 := .inl ⟨.positive, rfl⟩

theorem IsNull.mul_right (hx : IsNull x) (y : Float) : IsNull (x * y) := by
  change IsNull ⟨Float.Model.pack (UnpackedFloat.mul Format.binary64 x.toModel.unpack
    y.toModel.unpack)⟩
  rcases hx with ⟨s, hs⟩ | hnan
  · rw [hs]
    cases y.toModel.unpack with
    | infinity | notANumber => exact isNull_pack_notANumber
    | zero | finite => exact isNull_pack_zero _
  · rw [hnan]
    exact isNull_pack_notANumber

theorem IsNull.mul_left (hy : IsNull y) (x : Float) : IsNull (x * y) := by
  change IsNull ⟨Float.Model.pack (UnpackedFloat.mul Format.binary64 x.toModel.unpack
    y.toModel.unpack)⟩
  rcases hy with ⟨s, hs⟩ | hnan
  · rw [hs]
    cases x.toModel.unpack with
    | infinity | notANumber => exact isNull_pack_notANumber
    | zero | finite => exact isNull_pack_zero _
  · rw [hnan]
    cases x.toModel.unpack <;> exact isNull_pack_notANumber

theorem IsNull.add (hx : IsNull x) (hy : IsNull y) : IsNull (x + y) := by
  change IsNull ⟨Float.Model.pack (UnpackedFloat.add Format.binary64 x.toModel.unpack
    y.toModel.unpack)⟩
  rcases hx with ⟨s, hs⟩ | hnan
  · rw [hs]
    rcases hy with ⟨t, ht⟩ | hnan
    · rw [ht]
      -- The sign of a sum of zeros depends on both of theirs.
      cases s <;> cases t <;> exact isNull_pack_zero _
    · rw [hnan]
      exact isNull_pack_notANumber
  · rw [hnan]
    exact isNull_pack_notANumber

theorem IsNull.neg (hx : IsNull x) : IsNull (-x) := by
  change IsNull ⟨Float.Model.pack x.toModel.unpack.neg⟩
  rcases hx with ⟨s, hs⟩ | hnan
  · rw [hs]
    exact isNull_pack_zero _
  · rw [hnan]
    exact isNull_pack_notANumber

theorem IsNull.div (hx : IsNull x) (y : Float) : IsNull (x / y) := by
  change IsNull ⟨Float.Model.pack (UnpackedFloat.div Format.binary64 x.toModel.unpack
    y.toModel.unpack)⟩
  rcases hx with ⟨s, hs⟩ | hnan
  · rw [hs]
    cases y.toModel.unpack with
    | zero | notANumber => exact isNull_pack_notANumber
    | infinity | finite => exact isNull_pack_zero _
  · rw [hnan]
    exact isNull_pack_notANumber

/-- A finite null double is zero. -/
theorem IsNull.beq_zero (hx : IsNull x) (hfinite : x.isFinite = true) : (x == 0.0) = true := by
  rcases hx with ⟨s, hs⟩ | hnan
  · change UnpackedFloat.beq x.toModel.unpack (0.0 : Float).toModel.unpack = true
    rw [hs]
    cases s <;> rfl
  · change UnpackedFloat.isFinite x.toModel.unpack = true at hfinite
    rw [hnan] at hfinite
    cases hfinite

/-- Rounding changes no zero. -/
theorem roundSignificant_of_beq_zero (hx : (x == 0.0) = true) (digits : Nat) :
    roundSignificant x digits = x := by
  rw [roundSignificant, if_pos (by rw [hx]; rfl)]

end Double

/-! ### The real line -/

namespace Complex

/-- The imaginary part is null. -/
def OnRealLine (z : Complex) : Prop := Double.IsNull z.im

variable {z w : Complex}

theorem onRealLine_ofReal (x : Float) : (ofReal x).OnRealLine := Double.isNull_zero

theorem onRealLine_zero : zero.OnRealLine := Double.isNull_zero

theorem onRealLine_one : one.OnRealLine := Double.isNull_zero

theorem OnRealLine.add (hz : z.OnRealLine) (hw : w.OnRealLine) : (z.add w).OnRealLine :=
  Double.IsNull.add hz hw

theorem OnRealLine.mul (hz : z.OnRealLine) (hw : w.OnRealLine) : (z.mul w).OnRealLine :=
  (Double.IsNull.mul_left hw z.re).add (Double.IsNull.mul_right hz w.re)

theorem OnRealLine.inv (hz : z.OnRealLine) : z.inv.OnRealLine := (Double.IsNull.neg hz).div _

theorem onRealLine_powerLoop {square product : Complex} (fuel n : Nat)
    (hsquare : square.OnRealLine) (hproduct : product.OnRealLine) :
    (powerLoop fuel square product n).OnRealLine := by
  induction fuel generalizing square product n with
  | zero => exact hproduct
  | succ fuel ih =>
    rw [powerLoop]
    split
    · exact hproduct
    · dsimp only
      refine ih _ (hsquare.mul hsquare) ?_
      split
      · exact hproduct.mul (hsquare.mul hsquare)
      · exact hproduct

theorem onRealLine_powerEven (fuel n : Nat) (hz : z.OnRealLine) :
    (powerEven fuel z n).OnRealLine := by
  induction fuel generalizing z n with
  | zero => exact hz
  | succ fuel ih =>
    rw [powerEven]
    split
    · exact ih _ (hz.mul hz)
    · exact onRealLine_powerLoop _ _ hz hz

theorem OnRealLine.powNat (hz : z.OnRealLine) (n : Nat) : (z.powNat n).OnRealLine := by
  unfold Complex.powNat
  split
  · exact onRealLine_one
  · exact onRealLine_powerEven _ _ hz

/-- Whole powers stay on the real line. -/
theorem OnRealLine.powInt (hz : z.OnRealLine) (k : Int) : (z.powInt k).OnRealLine := by
  unfold Complex.powInt
  split
  · exact hz.inv.powNat _
  · exact hz.powNat _

theorem OnRealLine.im_beq_zero (hz : z.OnRealLine) (hfinite : z.isFinite = true) :
    (z.im == 0.0) = true := Double.IsNull.beq_zero hz (Bool.and_eq_true_iff.1 hfinite).2

/-- The principal root of a number that is not negative is on the real line. -/
theorem OnRealLine.principalRoot (hz : z.OnRealLine) (hfinite : z.isFinite = true)
    (hnonneg : z.re ≥ 0.0) (index : Nat) : (z.principalRoot index).OnRealLine := by
  unfold Complex.principalRoot
  dsimp only
  rw [if_pos (by rw [hz.im_beq_zero hfinite, decide_eq_true hnonneg]; rfl)]
  exact onRealLine_ofReal _

/-- A finite number on the real line is rounded to one with the imaginary part zero. -/
theorem OnRealLine.round_im (hz : z.OnRealLine) (hfinite : z.isFinite = true) (digits : Nat) :
    ((z.round digits).im == 0.0) = true := by
  have hchop : (chop z.norm z.im == 0.0) = true := by
    unfold chop
    split
    · decide
    · exact hz.im_beq_zero hfinite
  change (Double.roundSignificant (chop z.norm z.im) digits == 0.0) = true
  rw [Double.roundSignificant_of_beq_zero hchop, hchop]

end Complex

end Resolvent

/-! ## Forms that are known to be real -/

namespace Resolvent

variable (unit : AngleUnit) (x : Nat → ℂ) (functions : Builtin → List ℂ → ℂ)

/-- The form does not have a negative value, and its double is a number that is not negative. -/
structure Form.IsNonneg (f : Form) : Prop where
  /-- The principal value. -/
  value : 0 ≤ (f.value (Atom.principal x functions)).re
  /-- The double is a number. -/
  finite : (f.constantValue unit).isFinite = true
  /-- The double is not negative. -/
  double : (f.constantValue unit).re ≥ 0.0

mutual

/-- No radical in the atom is of a negative number. -/
def Atom.RadicandsNonneg : Atom → Prop
  | .radical f _ => f.IsNonneg unit x functions ∧ f.RadicandsNonneg
  | .reciprocal f => f.RadicandsNonneg
  | .symbol _ | .pi | .e | .imaginaryUnit | .root _ _ | .apply _ _ | .power _ _ => True

/-- No radical in the monomial is of a negative number. -/
def Monomial.RadicandsNonneg : Monomial → Prop
  | ⟨factors⟩ => Monomial.FactorRadicandsNonneg factors

/-- No radical in the factors is of a negative number. -/
def Monomial.FactorRadicandsNonneg : List (Atom × Int) → Prop
  | [] => True
  | (a, _) :: rest => a.RadicandsNonneg ∧ Monomial.FactorRadicandsNonneg rest

/-- No radical in the form is of a negative number. -/
def Form.RadicandsNonneg : Form → Prop
  | ⟨terms⟩ => Form.TermRadicandsNonneg terms

/-- No radical in the terms is of a negative number. -/
def Form.TermRadicandsNonneg : List (Monomial × Rat) → Prop
  | [] => True
  | (m, _) :: rest => m.RadicandsNonneg ∧ Form.TermRadicandsNonneg rest

end

/-! ### Real values -/

section Reals

variable {z w : ℂ}

theorem im_mul_eq_zero (hz : z.im = 0) (hw : w.im = 0) : (z * w).im = 0 := by
  rw [Complex.mul_im, hz, hw, mul_zero, zero_mul, add_zero]

theorem im_zpow_eq_zero (hz : z.im = 0) (k : ℤ) : (z ^ k).im = 0 := by
  have hreal : z = (z.re : ℂ) := Complex.ext rfl hz
  rw [hreal, ← Complex.ofReal_zpow, Complex.ofReal_im]

theorem im_inv_eq_zero (hz : z.im = 0) : z⁻¹.im = 0 := by
  rw [Complex.inv_im, hz, neg_zero, zero_div]

/-- The principal root of a number that is not negative is real. -/
theorem im_cpow_inv_eq_zero (hz : z.im = 0) (hnonneg : 0 ≤ z.re) (n : Nat) :
    (z ^ (n : ℂ)⁻¹).im = 0 := by
  have hreal : z = (z.re : ℂ) := Complex.ext rfl hz
  have hexponent : (n : ℂ)⁻¹ = ((n : ℝ)⁻¹ : ℝ) := by push_cast; rfl
  rw [hreal, hexponent, ← Complex.ofReal_cpow hnonneg, Complex.ofReal_im]

end Reals

variable {unit x functions}

/-- The radicand is not negative if the index of the radical is odd. -/
def Atom.OddRadicandNonneg (v : Atom → ℂ) : Atom → Prop
  | .radical f n => n % 2 = 1 → 0 ≤ (f.value v).re
  | _ => True

/-- Even radicals are known to be real only if their radicands are not negative. -/
theorem Form.nonneg_of_isKnownReal_radical {f : Form} {n : Nat} {v : Atom → ℂ}
    (h : (Atom.radical f n).isKnownReal = true) (hodd : (Atom.radical f n).OddRadicandNonneg v) :
    f.isKnownReal = true ∧ 0 ≤ (f.value v).re := by
  rw [Atom.isKnownReal, Bool.and_eq_true, Bool.or_eq_true] at h
  refine ⟨h.1, h.2.elim (fun hindex => hodd (by simpa using hindex)) fun hrational => ?_⟩
  rcases hq : f.toRat? with - | q <;> rw [hq] at hrational
  · cases hrational
  · have hnonneg : 0 ≤ q := by simpa using hrational
    rw [toRat?_eq_some v hq, Complex.ratCast_re]
    exact_mod_cast hnonneg

mutual

/-- An atom that is known to be real has a real value. -/
theorem Atom.im_principal_eq_zero : ∀ a : Atom, a.isKnownReal = true →
    a.Everywhere (Atom.OddRadicandNonneg (Atom.principal x functions)) →
      (a.principal x functions).im = 0
  | .symbol _, h, _ | .imaginaryUnit, h, _ | .apply _ _, h, _ | .power _ _, h, _ => by
    simp [Atom.isKnownReal] at h
  | .pi, _, _ | .e, _, _ | .root _ _, _, _ => by
    rw [Atom.principal, Complex.ofReal_im]
  | .radical f n, h, hodd => by
    obtain ⟨hknown, hnonneg⟩ := Form.nonneg_of_isKnownReal_radical h hodd.1
    rw [Atom.principal_radical]
    exact im_cpow_inv_eq_zero (Form.im_value_eq_zero f hknown (Atom.throughout_radical.1 hodd.2))
      hnonneg n
  | .reciprocal f, h, hodd => by
    rw [Atom.isKnownReal] at h
    rw [Atom.principal_reciprocal]
    exact im_inv_eq_zero (Form.im_value_eq_zero f h (Atom.throughout_reciprocal.1 hodd.2))

/-- A form whose atoms are known to be real has a real value. -/
theorem Form.im_value_eq_zero : ∀ f : Form, f.isKnownReal = true →
    f.Everywhere (Atom.OddRadicandNonneg (Atom.principal x functions)) →
      (f.value (Atom.principal x functions)).im = 0
  | ⟨terms⟩, h, hodd => by
    rw [Form.isKnownReal] at h
    exact Form.im_termsValue_eq_zero terms h (Form.everywhere_iff.1 hodd)

theorem Form.im_termsValue_eq_zero : ∀ terms : List (Monomial × Rat),
    Form.areTermsKnownReal terms = true →
    (∀ t ∈ terms, t.1.Everywhere (Atom.OddRadicandNonneg (Atom.principal x functions))) →
      (Form.termsValue (Atom.principal x functions) terms).im = 0
  | [], _, _ => by rw [Form.termsValue_nil, Complex.zero_im]
  | (⟨factors⟩, q) :: terms, h, hodd => by
    rw [Form.areTermsKnownReal, Bool.and_eq_true, Monomial.isKnownReal] at h
    obtain ⟨hfactors, hterms⟩ := List.forall_mem_cons.1 hodd
    rw [Form.termsValue_cons, Complex.add_im, Form.im_termsValue_eq_zero terms h.2 hterms,
      add_zero]
    exact im_mul_eq_zero (Complex.ratCast_im q)
      (Monomial.im_factorsValue_eq_zero factors h.1 hfactors)

theorem Monomial.im_factorsValue_eq_zero : ∀ factors : List (Atom × Int),
    Monomial.areFactorsKnownReal factors = true →
    (∀ y ∈ factors, y.1.Everywhere (Atom.OddRadicandNonneg (Atom.principal x functions))) →
      (Monomial.factorsValue (Atom.principal x functions) factors).im = 0
  | [], _, _ => by rw [Monomial.factorsValue_nil, Complex.one_im]
  | (a, k) :: factors, h, hodd => by
    rw [Monomial.areFactorsKnownReal, Bool.and_eq_true] at h
    obtain ⟨hatom, hfactors⟩ := List.forall_mem_cons.1 hodd
    rw [Monomial.factorsValue_cons]
    exact im_mul_eq_zero (im_zpow_eq_zero (Atom.im_principal_eq_zero a h.1 hatom) k)
      (Monomial.im_factorsValue_eq_zero factors h.2 hfactors)

end

mutual

/-- No radical in the atom is of a negative number, so none with an odd index is. -/
theorem Atom.RadicandsNonneg.everywhere : ∀ {a : Atom}, a.RadicandsNonneg unit x functions →
    a.isKnownReal = true → a.Everywhere (Atom.OddRadicandNonneg (Atom.principal x functions))
  | .symbol _, _, h | .imaginaryUnit, _, h | .apply _ _, _, h | .power _ _, _, h => by
    simp [Atom.isKnownReal] at h
  | .pi, _, _ | .e, _, _ | .root _ _, _, _ => ⟨trivial, fun _ h => by cases h⟩
  | .radical f n, hradicands, h => by
    rw [Atom.RadicandsNonneg] at hradicands
    rw [Atom.isKnownReal, Bool.and_eq_true] at h
    exact ⟨fun _ => hradicands.1.value,
      Atom.throughout_radical.2 (Form.RadicandsNonneg.everywhere hradicands.2 h.1)⟩
  | .reciprocal f, hradicands, h => by
    rw [Atom.RadicandsNonneg] at hradicands
    rw [Atom.isKnownReal] at h
    exact ⟨trivial, Atom.throughout_reciprocal.2 (Form.RadicandsNonneg.everywhere hradicands h)⟩

/-- No radical in the form is of a negative number, so none with an odd index is. -/
theorem Form.RadicandsNonneg.everywhere : ∀ {f : Form}, f.RadicandsNonneg unit x functions →
    f.isKnownReal = true → f.Everywhere (Atom.OddRadicandNonneg (Atom.principal x functions))
  | ⟨terms⟩, hradicands, h => by
    rw [Form.RadicandsNonneg] at hradicands
    rw [Form.isKnownReal] at h
    exact Form.everywhere_iff.2 (Form.TermRadicandsNonneg.everywhere hradicands h)

theorem Form.TermRadicandsNonneg.everywhere : ∀ {terms : List (Monomial × Rat)},
    Form.TermRadicandsNonneg unit x functions terms → Form.areTermsKnownReal terms = true →
    ∀ t ∈ terms, t.1.Everywhere (Atom.OddRadicandNonneg (Atom.principal x functions))
  | [], _, _ => List.forall_mem_nil _
  | (⟨factors⟩, q) :: terms, hradicands, h => by
    rw [Form.TermRadicandsNonneg, Monomial.RadicandsNonneg] at hradicands
    rw [Form.areTermsKnownReal, Bool.and_eq_true, Monomial.isKnownReal] at h
    exact List.forall_mem_cons.2
      ⟨Monomial.FactorRadicandsNonneg.everywhere hradicands.1 h.1,
        Form.TermRadicandsNonneg.everywhere hradicands.2 h.2⟩

theorem Monomial.FactorRadicandsNonneg.everywhere : ∀ {factors : List (Atom × Int)},
    Monomial.FactorRadicandsNonneg unit x functions factors →
    Monomial.areFactorsKnownReal factors = true →
    ∀ y ∈ factors, y.1.Everywhere (Atom.OddRadicandNonneg (Atom.principal x functions))
  | [], _, _ => List.forall_mem_nil _
  | (a, k) :: factors, hradicands, h => by
    rw [Monomial.FactorRadicandsNonneg] at hradicands
    rw [Monomial.areFactorsKnownReal, Bool.and_eq_true] at h
    exact List.forall_mem_cons.2 ⟨Atom.RadicandsNonneg.everywhere hradicands.1 h.1,
      Monomial.FactorRadicandsNonneg.everywhere hradicands.2 h.2⟩

end

/-! ### Doubles on the real line -/

mutual

/-- The double of an atom that is known to be real is on the real line. -/
theorem Atom.onRealLine_evaluate : ∀ a : Atom, a.isKnownReal = true →
    a.RadicandsNonneg unit x functions → (a.evaluate unit fun _ => none).OnRealLine
  | .symbol _, h, _ | .imaginaryUnit, h, _ | .apply _ _, h, _ | .power _ _, h, _ => by
    simp [Atom.isKnownReal] at h
  | .pi, _, _ | .e, _, _ | .root _ _, _, _ => by
    rw [Atom.evaluate]
    exact Complex.onRealLine_ofReal _
  | .radical f n, h, hradicands => by
    rw [Atom.isKnownReal, Bool.and_eq_true] at h
    rw [Atom.RadicandsNonneg] at hradicands
    have hline := Form.onRealLine_evaluate f h.1 hradicands.2
    rw [Atom.evaluate]
    exact hline.principalRoot hradicands.1.finite hradicands.1.double n
  | .reciprocal f, h, hradicands => by
    rw [Atom.isKnownReal] at h
    rw [Atom.RadicandsNonneg] at hradicands
    rw [Atom.evaluate]
    exact (Form.onRealLine_evaluate f h hradicands).inv

theorem Monomial.onRealLine_evaluate : ∀ (m : Monomial) {start : Complex}, start.OnRealLine →
    m.isKnownReal = true → m.RadicandsNonneg unit x functions →
      (m.evaluate unit (fun _ => none) start).OnRealLine
  | ⟨factors⟩, _, hstart, h, hradicands => by
    rw [Monomial.isKnownReal] at h
    rw [Monomial.RadicandsNonneg] at hradicands
    rw [Monomial.evaluate]
    exact Monomial.onRealLine_evaluateFactors factors hstart h hradicands

theorem Monomial.onRealLine_evaluateFactors : ∀ (factors : List (Atom × Int)) {start : Complex},
    start.OnRealLine → Monomial.areFactorsKnownReal factors = true →
    Monomial.FactorRadicandsNonneg unit x functions factors →
      (Monomial.evaluateFactors unit (fun _ => none) start factors).OnRealLine
  | [], _, hstart, _, _ => hstart
  | (a, k) :: factors, _, hstart, h, hradicands => by
    rw [Monomial.areFactorsKnownReal, Bool.and_eq_true] at h
    rw [Monomial.FactorRadicandsNonneg] at hradicands
    rw [Monomial.evaluateFactors]
    have hatom := Atom.onRealLine_evaluate a h.1 hradicands.1
    exact Monomial.onRealLine_evaluateFactors factors (hstart.mul (hatom.powInt k)) h.2 hradicands.2

/-- The double of a form whose atoms are known to be real is on the real line. -/
theorem Form.onRealLine_evaluate : ∀ f : Form, f.isKnownReal = true →
    f.RadicandsNonneg unit x functions → (f.evaluate unit fun _ => none).OnRealLine
  | ⟨terms⟩, h, hradicands => by
    rw [Form.isKnownReal] at h
    rw [Form.RadicandsNonneg] at hradicands
    rw [Form.evaluate]
    exact Form.onRealLine_evaluateTerms terms Complex.onRealLine_zero h hradicands

theorem Form.onRealLine_evaluateTerms : ∀ (terms : List (Monomial × Rat)) {start : Complex},
    start.OnRealLine → Form.areTermsKnownReal terms = true →
    Form.TermRadicandsNonneg unit x functions terms →
      (Form.evaluateTerms unit (fun _ => none) start terms).OnRealLine
  | [], _, hstart, _, _ => hstart
  | (m, q) :: terms, _, hstart, h, hradicands => by
    rw [Form.areTermsKnownReal, Bool.and_eq_true] at h
    rw [Form.TermRadicandsNonneg] at hradicands
    rw [Form.evaluateTerms]
    have hterm := Monomial.onRealLine_evaluate m (Complex.onRealLine_ofReal (Double.ofRational q))
      h.1 hradicands.1
    exact Form.onRealLine_evaluateTerms terms (hstart.add hterm) h.2 hradicands.2

end

/-! ### Real forms as they are shown -/

theorem Monomial.areFactorsKnownReal_iff {factors : List (Atom × Int)} :
    areFactorsKnownReal factors = true ↔ ∀ y ∈ factors, y.1.isKnownReal = true := by
  induction factors with
  | nil => simp [areFactorsKnownReal]
  | cons y factors ih => rw [areFactorsKnownReal, Bool.and_eq_true, ih, List.forall_mem_cons]

theorem Form.areTermsKnownReal_iff {terms : List (Monomial × Rat)} :
    areTermsKnownReal terms = true ↔ ∀ t ∈ terms, t.1.isKnownReal = true := by
  induction terms with
  | nil => simp [areTermsKnownReal]
  | cons t terms ih => rw [areTermsKnownReal, Bool.and_eq_true, ih, List.forall_mem_cons]

theorem Monomial.exponentOf_imaginaryUnit {m : Monomial} (h : m.isKnownReal = true) :
    m.exponentOf .imaginaryUnit = 0 := by
  obtain ⟨factors⟩ := m
  rw [isKnownReal, areFactorsKnownReal_iff] at h
  have hnone : factors.find? (fun y => decide (y.1 = .imaginaryUnit)) = none := by
    refine List.find?_eq_none.2 fun y hy hunit => ?_
    have hknown := h y hy
    rw [of_decide_eq_true hunit] at hknown
    simp [Atom.isKnownReal] at hknown
  rw [exponentOf, hnone]

/-- A form whose atoms are known to be real is its own real part. -/
theorem Form.splitComplex?_of_isKnownReal {f : Form} (h : f.isKnownReal = true) :
    f.splitComplex? = some (f, zero) := by
  obtain ⟨terms⟩ := f
  have hterms : ∀ t ∈ terms, t.1.exponentOf .imaginaryUnit = 0 := by
    rw [isKnownReal, areTermsKnownReal_iff] at h
    exact fun t ht => Monomial.exponentOf_imaginaryUnit (h t ht)
  have hre : (⟨terms⟩ : Form).realPart = ⟨terms⟩ := by
    rw [realPart, List.filter_eq_self.2 fun t ht => by simp [hterms t ht]]
  have him : (⟨terms⟩ : Form).imaginaryPart = zero := by
    rw [imaginaryPart, List.filter_eq_nil_iff.2 fun t ht => by simp [hterms t ht]]
    rfl
  rw [splitComplex?, hre, him, h]
  rfl

namespace Rendition

variable {p : Preferences} {f : Form}

/-- A form whose atoms are known to be real is never shown as unreal.  If its radicands are not
negative and it is shown as a number, then it has a real value, and the number has the imaginary part
zero. -/
theorem ofForm_of_isKnownReal (h : f.isKnownReal = true)
    (hradicands : f.RadicandsNonneg p.angleUnit x functions) :
    (ofForm p f).kind ≠ .unreal ∧
      ((ofForm p f).kind = .finite →
        (f.value (Valuation.principal x functions)).im = 0 ∧
          ((ofForm p f).value.im == 0.0) = true) := by
  have hreal : isReal f (f.constantValue p.angleUnit) = true := by
    rw [isReal, Form.splitComplex?_of_isKnownReal h]
    rfl
  have hline := Form.onRealLine_evaluate f h hradicands
  unfold ofForm
  dsimp only
  rw [hreal]
  split
  · exact ⟨nofun, nofun⟩
  · next hnot =>
    have hfinite : (f.constantValue p.angleUnit).isFinite = true := by simpa using hnot
    rw [Bool.not_true, Bool.and_false, if_neg Bool.false_ne_true]
    exact ⟨nofun, fun _ =>
      ⟨Form.im_value_eq_zero f h (hradicands.everywhere h), hline.round_im hfinite p.digits⟩⟩

/-- Twice the circle number is shown as a number with the imaginary part zero. -/
theorem ofForm_twice_pi :
    let f : Form := ⟨[(⟨[(.pi, 1)]⟩, 2)]⟩
    (f.isKnownReal = true ∧ f.RadicandsNonneg .radian (fun _ => 0) (fun _ _ => 0)) ∧
      (ofForm {} f).kind = .finite ∧
      (f.value (Valuation.principal (fun _ => 0) fun _ _ => 0)).im = 0 ∧
      ((ofForm {} f).value.im == 0.0) = true := by
  intro f
  have h : f.isKnownReal = true := by decide
  have hradicands : f.RadicandsNonneg .radian (fun _ => 0) (fun _ _ => 0) := by
    simp [f, Form.RadicandsNonneg, Form.TermRadicandsNonneg, Monomial.RadicandsNonneg,
      Monomial.FactorRadicandsNonneg, Atom.RadicandsNonneg]
  have hfinite : (ofForm {} f).kind = .finite := by decide +kernel
  exact ⟨⟨h, hradicands⟩, hfinite, (ofForm_of_isKnownReal h hradicands).2 hfinite⟩

end Rendition

end Resolvent

import Resolvent.Proofs.Form.Constant
import Resolvent.Proofs.Form.Display
import Resolvent.Proofs.Numeric.Decimals

/-!
# Numbers with rational parts

`Form.ofParts q r` is the form of `q + r𝐢` for rational numbers.  It has at most two terms
(`Form.terms_ofParts`), splits into its parts, and its modulus is the root of a rational number, so
that what is written for it in any format is read without conditions (`Form.number?_display_ofParts`).
-/

namespace Resolvent.Form

/-- The number with a real and an imaginary part. -/
def ofParts (q r : Rat) : Form := add (ofRat q) (mul (ofRat r) imaginaryUnit)

variable {q r s : Rat} {p : Preferences} {unit : AngleUnit} {x : Nat → ℂ}
  {functions : Builtin → List ℂ → ℂ}

/-! ### Constants -/

theorem isKnownReal_ofRat (q : Rat) : (ofRat q).isKnownReal = true := by
  by_cases hq : q = 0 <;>
    simp [ofRat, hq, zero, Form.isKnownReal, areTermsKnownReal, Monomial.one, Monomial.isKnownReal,
      Monomial.areFactorsKnownReal]

/-- The double of a constant is added to zero. -/
theorem constantValue_ofRat (hq : q ≠ 0) :
    (ofRat q).constantValue unit = Complex.zero.add (Complex.ofReal (Double.ofRational q)) := by
  rw [constantValue, ofRat, if_neg hq, evaluate, evaluateTerms, evaluateTerms, Monomial.one,
    Monomial.evaluate, Monomial.evaluateFactors]

/-- The double of a rational number that is not negative has no sign. -/
theorem isUnsigned_constantValue_ofRat (hq : 0 ≤ q) :
    Double.IsUnsigned ((ofRat q).constantValue unit).re.toModel.unpack := by
  by_cases hzero : q = 0
  · rw [hzero, ofRat_zero, constantValue_zero]
    exact .inr (.inl rfl)
  · rw [constantValue_ofRat hzero]
    exact Double.isUnsigned_zero_add_ofRational hq

theorem doubleHasSign_ofRat {v : Atom → ℂ} (hq : 0 ≤ q) : (ofRat q).DoubleHasSign unit v where
  nonpos := fun h => absurd h (isUnsigned_constantValue_ofRat hq).not_lt_zero
  nonneg := fun _ => by
    rw [value_ofRat, Complex.ratCast_re]
    exact_mod_cast hq

/-! ### The form -/

theorem mul_ofRat_imaginaryUnit (r : Rat) :
    mul (ofRat r) imaginaryUnit = ofTerm ⟨[(.imaginaryUnit, 1)]⟩ r := by
  rw [imaginaryUnit_eq]
  by_cases hr : r = 0
  · simp [hr, ofRat, zero, mul, mulWith, sumAll, sumLoop, ofTerm]
  · simp [hr, ofRat, mul, mulWith, sumAll, sumLoop, mulTermWith, Monomial.isOne, Monomial.one, ofTerm]

theorem terms_ofParts (q r : Rat) : (ofParts q r).terms =
    (ofRat q).terms ++ (ofTerm ⟨[(.imaginaryUnit, 1)]⟩ r).terms := by
  have horder : Monomial.one.order ⟨[(.imaginaryUnit, 1)]⟩ = .lt := by decide +kernel
  rw [ofParts, mul_ofRat_imaginaryUnit]
  by_cases hq : q = 0
  · rw [hq, ofRat_zero, Form.zero_add]
    rfl
  · by_cases hr : r = 0
    · rw [hr, ofTerm, if_pos rfl, Form.add_zero]
      exact (List.append_nil _).symm
    · rw [ofRat, if_neg hq, ofTerm, if_neg hr]
      simp only [add, mergeTerms, mergeTerm, horder]
      rfl

theorem value_ofParts : (ofParts q r).value (Valuation.principal x functions) =
    q + r * Complex.I := by
  rw [ofParts, value_add, value_mul (ofRat_mulWithin _ _ _), value_ofRat, value_ofRat,
    value_imaginaryUnit, principal_imaginaryUnit_eq_I]

theorem constructible_ofParts : (ofParts q r).Constructible :=
  .add (.ofRat q) (.mul (.ofRat r) .imaginaryUnit)

theorem splitComplex?_ofParts : (ofParts q r).splitComplex? = some (ofRat q, ofRat r) := by
  have hone : Monomial.one.exponentOf .imaginaryUnit = 0 := rfl
  have hunit : (⟨[(.imaginaryUnit, 1)]⟩ : Monomial).exponentOf .imaginaryUnit = 1 := by
    decide +kernel
  have hre : (ofParts q r).realPart = ofRat q := by
    rw [realPart, terms_ofParts]
    by_cases hq : q = 0 <;> by_cases hr : r = 0 <;>
      simp [ofRat, ofTerm, hq, hr, zero, hone, hunit]
  have hwithout : (⟨[(.imaginaryUnit, 1)]⟩ : Monomial).without .imaginaryUnit = Monomial.one := by
    decide +kernel
  have him : (ofParts q r).imaginaryPart = ofRat r := by
    rw [imaginaryPart, terms_ofParts]
    by_cases hq : q = 0 <;> by_cases hr : r = 0 <;>
      simp [ofRat, ofTerm, hq, hr, zero, hone, hunit, hwithout, sumAll, sumLoop]
  rw [splitComplex?, hre, him, isKnownReal_ofRat, isKnownReal_ofRat]
  rfl

/-- What holds of the imaginary unit holds throughout a number with rational parts. -/
theorem throughout_ofParts {P : Atom × Int → Prop} (h : P (.imaginaryUnit, 1)) :
    (ofParts q r).Throughout P := by
  rw [throughout_iff, terms_ofParts]
  intro t ht y hy
  rcases List.mem_append.1 ht with ht | ht
  · rw [eq_of_mem_terms_ofRat ht] at hy
    cases hy
  · rw [ofTerm] at ht
    split at ht
    · cases ht
    · rw [List.mem_singleton.1 ht] at hy
      rw [List.mem_singleton.1 hy]
      exact ⟨h, fun x hx => by cases hx⟩

/-! ### What is written for it -/

theorem legible_ofParts : (ofParts q r).Legible (Arithmetic.principal x functions)
    (Valuation.principal x functions) :=
  throughout_ofParts ⟨rfl, by rw [principal_imaginaryUnit_eq_I]; exact Complex.I_ne_zero, by decide⟩

theorem modulusWithin_ofParts :
    (ofParts q r).ModulusWithin unit (Valuation.principal x functions) := by
  intro a b hsplit
  obtain ⟨rfl, rfl⟩ := Prod.mk.inj (Option.some.inj (splitComplex?_ofParts.symm.trans hsplit))
  refine ⟨mulWithin_ofRat _ _ q, mulWithin_ofRat _ _ r, ?_⟩
  rw [mul_ofRat, mul_ofRat, add_ofRat]
  exact doubleHasSign_ofRat (add_nonneg (mul_self_nonneg q) (mul_self_nonneg r))

/-- What is written for the root of a positive rational number is read as its value. -/
theorem legible_positiveRoot (hs : 0 < s) : (positiveRoot s 2).Legible
    (Arithmetic.principal x functions) (Valuation.principal x functions) := by
  have hlow : (-2147483648 : Int) < 1 := by decide
  rcases positiveRoot_cases hs le_rfl with ⟨-, heq⟩ | ⟨-, t, u, -, hu, -, ⟨-, heq⟩ | heq⟩
  · have hne : Valuation.principal x functions (.radical (ofRat s) 2) ≠ 0 :=
      (lawful_radical_ofRat (Valuation.takesRadicals_principal x functions) le_rfl hs.ne').2.1
    rw [heq, radical_eq le_rfl, legible_iff]
    exact List.forall_mem_singleton.2 (List.forall_mem_singleton.2
      ⟨⟨Arithmetic.interprets_principal x functions trivial, hne, hlow⟩,
        Atom.throughout_radical.2 (legible_ofRat s)⟩)
  · rw [heq]
    exact legible_ofRat t
  · rw [heq, legible_iff]
    refine monomialsIn_ofTerm (List.forall_mem_singleton.2 ⟨⟨?_, ?_, hlow⟩, nofun⟩) t
    · exact Arithmetic.interprets_principal x functions hu.le
    · exact (Valuation.principal x functions).root_ne_zero hu le_rfl

/-- What is written for its modulus is read as its value. -/
theorem legible_modulus_ofParts {modulus : Form} {θ : Rat}
    (h : (ofParts q r).polarParts? p = some (modulus, θ)) : modulus.Legible
      (Arithmetic.principal x functions) (Valuation.principal x functions) := by
  obtain ⟨-, a, b, hsplit, hroot⟩ := polar_of_polarParts? h
  obtain ⟨rfl, rfl⟩ := Prod.mk.inj (Option.some.inj (splitComplex?_ofParts.symm.trans hsplit))
  have hnonneg : 0 ≤ q * q + r * r := add_nonneg (mul_self_nonneg q) (mul_self_nonneg r)
  rw [mul_ofRat, mul_ofRat, add_ofRat, root] at hroot
  split at hroot
  · cases hroot
    exact legible_ofRat _
  · next hzero =>
    rw [isZero_ofRat] at hzero
    have hne : q * q + r * r ≠ 0 := by simpa using hzero
    rw [toRat?_ofRat] at hroot
    dsimp only at hroot
    rw [rationalRoot, if_pos hnonneg, magnitude_eq_abs, abs_of_nonneg hnonneg] at hroot
    cases hroot
    exact legible_positiveRoot (lt_of_le_of_ne hnonneg hne.symm)

/-- A rational number that is not negative is not written with a modulus and an argument. -/
theorem polarParts?_ofParts_of_nonneg (hq : 0 ≤ q) : (ofParts q 0).polarParts? p = none := by
  have heq : ofParts q 0 = ofRat q := by
    rw [ofParts, mul_ofRat_imaginaryUnit, ofTerm, if_pos rfl, Form.add_zero]
  have hunsigned : Double.IsUnsigned ((ofRat q).constantValue p.angleUnit).re.toModel.unpack :=
    isUnsigned_constantValue_ofRat hq
  have hzero : (ofRat 0).isZero = true := by rw [isZero_ofRat]; rfl
  unfold polarParts?
  rw [splitComplex?_ofParts, heq]
  dsimp only
  rw [if_pos]
  cases hfinite : ((ofRat q).constantValue p.angleUnit).isFinite with
  | false => rfl
  | true =>
    have hre := (Bool.and_eq_true_iff.1 hfinite).1
    rw [hzero, decide_eq_true (hunsigned.nonneg hre)]
    rfl

/-- A number with rational parts is written with its value in all formats but the polar one.  There
it may be written with its modulus and a fraction of `π` as its argument. -/
theorem number?_display_ofParts (p : Preferences) (q r : Rat) :
    let z : ℂ := q + r * Complex.I
    ((p.complexFormat = .polar → (ofParts q r).polarParts? p = none) →
      ((ofParts q r).display p).number? (Arithmetic.principal x functions) = some z) ∧
    ∀ modulus θ, p.complexFormat = .polar →
      (ofParts q r).polarParts? p = some (modulus, θ) →
        ((ofParts q r).display p).number? (Arithmetic.principal x functions) =
          some ((‖z‖ : ℂ) * Circle.exp (θ * Real.pi)) := by
  intro z
  have hlegible : (ofParts q r).Legible (Arithmetic.principal x functions)
      (Valuation.principal x functions) := legible_ofParts
  have hpolar (hformat : p.complexFormat = .polar) := number?_display_polar hformat
    constructible_ofParts (throughout_ofParts trivial) modulusWithin_ofParts hlegible
  rw [value_ofParts] at hpolar
  refine ⟨fun h => ?_, fun modulus θ hformat hparts =>
    (((hpolar hformat).2 modulus θ hparts).2 (legible_modulus_ofParts hparts)).1⟩
  by_cases hformat : p.complexFormat = .polar
  · exact (hpolar hformat).1 (h hformat)
  · rw [display, if_neg hformat, number?_cartesian constructible_ofParts rfl legible_ofParts,
      value_ofParts]

end Resolvent.Form

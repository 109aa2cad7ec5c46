import Resolvent.Form.Display
import Resolvent.Proofs.Form.ComplexParts
import Resolvent.Proofs.Form.PlainValue
import Resolvent.Proofs.Numeric.Decimals
import Mathlib.Analysis.SpecialFunctions.Complex.Circle

/-!
# The number that is displayed

A form that is written as real and imaginary part keeps its value (`Form.number?_cartesian`).  One
that is written as modulus and argument keeps its modulus: the root of the sum of the squares of the
parts is exact.  Its argument is the fraction of `π` that is recognised in doubles, so the value is
kept if and only if that fraction is the argument of the value (`Form.number?_display_polar`).

A number in doubles is written with the decimal numbers that its doubles denote.  Written as real and
imaginary part it is read as the number with these parts (`Complex.IsDecimal.number?_display`).
Written as modulus and argument it is read as the number with another pair of decimal numbers for
these (`Complex.exists_of_number?_polarExpression`).
-/

namespace Resolvent

variable {K : Type*} [Field K] {R : Arithmetic K} {v : Atom → K}

namespace Form

variable {f a b : Form} {p : Preferences}

/-! ### Forms that are read as their values -/

/-- What is written for the form is read as its value: that holds of the atoms, none of which is
zero, and the exponents have opposites in a word of 32 bits. -/
def Legible (R : Arithmetic K) (v : Atom → K) (f : Form) : Prop :=
  f.Throughout fun x => R.Interprets v x.1 ∧ v x.1 ≠ 0 ∧ -2147483648 < x.2

theorem legible_iff : f.Legible R v ↔ f.MonomialsIn fun m => ∀ x ∈ m.factors,
    (R.Interprets v x.1 ∧ v x.1 ≠ 0 ∧ -2147483648 < x.2) ∧
      x.1.Throughout fun y => R.Interprets v y.1 ∧ v y.1 ≠ 0 ∧ -2147483648 < y.2 :=
  throughout_iff

theorem legible_ofRat (q : Rat) : (ofRat q).Legible R v :=
  legible_iff.2 (monomialsIn_ofRat (List.forall_mem_nil _) q)

theorem Legible.neg (h : f.Legible R v) : f.neg.Legible R v := legible_iff.2 (legible_iff.1 h).neg

theorem Legible.scale (h : f.Legible R v) (q : Rat) : (f.scale q).Legible R v :=
  legible_iff.2 ((legible_iff.1 h).scale q)

theorem Legible.parts (h : f.Legible R v) (hsplit : f.splitComplex? = some (a, b)) :
    a.Legible R v ∧ b.Legible R v := by
  obtain ⟨rfl, rfl⟩ := realPart_imaginaryPart_of_splitComplex? hsplit
  have h := legible_iff.1 h
  exact ⟨legible_iff.2 h.realPart, legible_iff.2 <| h.imaginaryPart fun m hm x hx =>
    hm x (List.mem_filter.1 hx).1⟩

theorem Legible.number?_expression [CharZero K] (h : f.Legible R v) :
    f.expression.number? R = some (f.value v) :=
  Form.number?_expression (h.imp fun _ hx => hx.1) (h.imp fun _ hx => hx.2.1)
    (h.imp fun _ hx => hx.2.2)

/-! ### Real and imaginary part -/

section Cartesian

variable [CharZero K] (hunit : R.constant .imaginaryUnit = v .imaginaryUnit)

include hunit

omit [CharZero K] in
theorem number?_imaginaryUnit :
    (Expression.constant .imaginaryUnit).number? R = some (v .imaginaryUnit) := by
  rw [Expression.number?, hunit]

/-- An imaginary part is read as the multiple of the imaginary unit, with its sign. -/
theorem number?_imaginaryExpression (hb : b.Legible R v) :
    b.imaginaryExpression.number? R = some (b.value v * v .imaginaryUnit) := by
  have hmultiple : ∀ {g : Form}, g.Legible R v →
      (if g.isOne then Expression.constant .imaginaryUnit
        else .productOf [g.expression, .constant .imaginaryUnit]).number? R =
          some (g.value v * v .imaginaryUnit) := by
    intro g hg
    have hi := number?_imaginaryUnit hunit
    split
    · next hone => rw [hi, toRat?_eq_some v (beq_iff_eq.1 hone), Rat.cast_one, one_mul]
    · rw [Expression.number?_productOf (Expression.numbers?_cons hg.number?_expression
        (Expression.numbers?_cons hi (by rw [Expression.numbers?]))), List.prod_cons,
        List.prod_singleton]
  unfold imaginaryExpression
  dsimp only
  split
  · rw [Expression.number?_opposite (hmultiple hb.neg), value_neg, neg_mul, InvolutiveNeg.neg_neg]
  · exact hmultiple hb

end Cartesian

/-- Real and imaginary part are read as the value of the form. -/
theorem number?_cartesian [CharZero K] {v : Valuation K} (hf : f.Constructible)
    (hunit : R.constant .imaginaryUnit = v .imaginaryUnit) (h : f.Legible R v) :
    f.cartesian.number? R = some (f.value v) := by
  unfold cartesian
  split
  · exact h.number?_expression
  · next a b hsplit =>
    obtain ⟨ha, hb⟩ := h.parts hsplit
    have himaginary := number?_imaginaryExpression hunit hb
    have hvalue : f.value v = a.value v + b.value v * v .imaginaryUnit := by
      obtain ⟨rfl, rfl⟩ := realPart_imaginaryPart_of_splitComplex? hsplit
      exact hf.stored.unitReduced.value_split v
    split
    · exact h.number?_expression
    · split
      · next hzero =>
        rw [himaginary, hvalue, isZero_iff.1 hzero, value_zero, AddZeroClass.zero_add]
      · rw [Expression.number?_sumOf (Expression.numbers?_cons ha.number?_expression
          (Expression.numbers?_cons himaginary (by rw [Expression.numbers?]))), List.sum_cons,
          List.sum_singleton, hvalue]

/-! ### Modulus and argument -/

/-- The modulus and the fraction of `π` that the polar format writes for a form, where it writes no
sum. -/
def polarParts? (p : Preferences) (f : Form) : Option (Form × Rat) :=
  match f.splitComplex? with
  | none => none
  | some (re, im) =>
    let z := f.constantValue p.angleUnit
    if !z.isFinite || (im.isZero && z.re >= 0.0) then none
    else
      match root { p with complexFormat := .cartesian } (add (mul re re) (mul im im)) 2,
        simpleFraction? (z.arg / piFloat) with
      | .ok modulus, some argument => some (modulus, argument)
      | _, _ => none

theorem polar_of_polarParts?_eq_none (h : f.polarParts? p = none) :
    f.polar p = f.expression ∨ f.polar p = f.cartesian := by
  unfold polarParts? at h
  unfold polar
  cases hsplit : f.splitComplex? with
  | none => exact .inl rfl
  | some parts =>
    rw [hsplit] at h
    dsimp only at h ⊢
    split at h
    · next hplain => exact .inl (if_pos hplain)
    · next hplain =>
      rw [if_neg hplain]
      refine .inr ?_
      cases hroot : root { p with complexFormat := .cartesian }
        (add (mul parts.1 parts.1) (mul parts.2 parts.2)) 2 with
      | error => rfl
      | ok modulus =>
        cases hfraction : simpleFraction? ((f.constantValue p.angleUnit).arg / piFloat) with
        | none => rfl
        | some argument =>
          rw [hroot, hfraction] at h
          cases h

/-- Where a form is written with a modulus, that is the root of the sum of the squares of its
parts. -/
theorem polar_of_polarParts? {modulus : Form} {argument : Rat}
    (h : f.polarParts? p = some (modulus, argument)) :
    f.polar p = polarExpression modulus argument ∧ ∃ a b, f.splitComplex? = some (a, b) ∧
      root { p with complexFormat := .cartesian } (add (mul a a) (mul b b)) 2 = .ok modulus := by
  unfold polarParts? at h
  unfold polar
  cases hsplit : f.splitComplex? with
  | none =>
    rw [hsplit] at h
    cases h
  | some parts =>
    rw [hsplit] at h
    dsimp only at h ⊢
    split at h
    · cases h
    · next hplain =>
      rw [if_neg hplain]
      cases hroot : root { p with complexFormat := .cartesian }
        (add (mul parts.1 parts.1) (mul parts.2 parts.2)) 2 with
      | error =>
        rw [hroot] at h
        cases h
      | ok m =>
        cases hfraction : simpleFraction? ((f.constantValue p.angleUnit).arg / piFloat) with
        | none =>
          rw [hroot, hfraction] at h
          cases h
        | some θ =>
          rw [hroot, hfraction] at h
          cases h
          exact ⟨rfl, parts.1, parts.2, rfl, hroot⟩

/-! ### Polar coordinates -/

section Polar

variable {x : Nat → ℂ} {functions : Builtin → List ℂ → ℂ} {modulus : Form} {θ : Rat}

/-- A power of Euler's number with an imaginary exponent is read as a point of the unit circle. -/
theorem number?_unitPower {angle : Expression} {t : ℝ}
    (h : angle.number? (Arithmetic.principal x functions) = some (t : ℂ)) (negative : Bool) :
    (unitPower angle negative).number? (Arithmetic.principal x functions) =
      some (Circle.exp (if negative then -t else t) : ℂ) := by
  have hexponent : (Expression.productOf [angle, .constant .imaginaryUnit]).number?
      (Arithmetic.principal x functions) = some (t * Complex.I) := by
    have hi : (Expression.constant .imaginaryUnit).number? (Arithmetic.principal x functions) =
        some Complex.I := by
      rw [Expression.number?]
      rfl
    rw [Expression.number?_productOf (Expression.numbers?_cons h
      (Expression.numbers?_cons hi (by rw [Expression.numbers?]))), List.prod_cons,
      List.prod_singleton]
  have hpower : ∀ {e : Expression} {s : ℝ},
      e.number? (Arithmetic.principal x functions) = some (s * Complex.I) →
        (Expression.power (.constant .e) e).number? (Arithmetic.principal x functions) =
          some (Circle.exp s : ℂ) := by
    intro e s he
    have hbase : ((Real.exp 1 : ℝ) : ℂ) ≠ 0 := by exact_mod_cast (Real.exp_pos 1).ne'
    rw [Expression.number?, he, Expression.number?, Option.bind_some, Option.bind_some]
    refine (if_neg fun hzero => hbase hzero.1).trans (congrArg some ?_)
    change ((Real.exp 1 : ℝ) : ℂ) ^ (s * Complex.I) = _
    rw [Complex.cpow_def_of_ne_zero hbase, ← Complex.ofReal_log (Real.exp_pos 1).le, Real.log_exp,
      Complex.ofReal_one, one_mul, Circle.coe_exp]
  unfold unitPower
  cases negative with
  | false => exact hpower hexponent
  | true =>
    have hopposite := Expression.number?_opposite hexponent
    rw [← neg_mul, ← Complex.ofReal_neg] at hopposite
    exact hpower hopposite

theorem pi_eq : pi = ⟨[(⟨[(.pi, 1)]⟩, 1)]⟩ := by decide +kernel

theorem legible_pi :
    pi.Legible (Arithmetic.principal x functions) (Valuation.principal x functions) := by
  rw [pi_eq, legible_iff]
  refine List.forall_mem_singleton.2 (List.forall_mem_singleton.2 ⟨⟨rfl, ?_, by decide⟩, nofun⟩)
  rw [(Valuation.isPositive_principal x functions).pi]
  exact_mod_cast Real.pi_ne_zero

theorem value_pi : pi.value (Valuation.principal x functions) = Real.pi := by
  rw [pi_eq, value, termsValue_cons, termsValue_nil, Monomial.value, Monomial.factorsValue_cons,
    Monomial.factorsValue_nil, (Valuation.isPositive_principal x functions).pi]
  simp

theorem signed_magnitude (q : Rat) :
    (if decide (q < 0) then -(Rational.magnitude q * Real.pi) else Rational.magnitude q * Real.pi) =
      q * Real.pi := by
  rw [magnitude_eq_abs]
  by_cases hq : q < 0
  · rw [if_pos (decide_eq_true hq), abs_of_neg hq, Rat.cast_neg, neg_mul, InvolutiveNeg.neg_neg]
  · rw [if_neg (by simpa using hq), abs_of_nonneg (not_lt.1 hq)]

/-- Modulus and argument are read as the number that has them. -/
theorem number?_polarExpression
    (h : modulus.Legible (Arithmetic.principal x functions) (Valuation.principal x functions)) :
    (polarExpression modulus θ).number? (Arithmetic.principal x functions) =
      some (modulus.value (Valuation.principal x functions) * Circle.exp (θ * Real.pi)) := by
  unfold polarExpression
  split
  · next hzero =>
    rw [h.number?_expression, hzero, Rat.cast_zero, MulZeroClass.zero_mul, Circle.exp_zero,
      Circle.coe_one, mul_one]
  · have hangle : (pi.scale (Rational.magnitude θ)).expression.number?
        (Arithmetic.principal x functions) = some ((Rational.magnitude θ * Real.pi : ℝ) : ℂ) := by
      rw [(legible_pi.scale _).number?_expression, value_scale, value_pi]
      push_cast
      rfl
    have hunit := number?_unitPower hangle (decide (θ < 0))
    rw [signed_magnitude] at hunit
    dsimp only
    split
    · next hone =>
      rw [hunit, toRat?_eq_some _ (beq_iff_eq.1 hone), Rat.cast_one, one_mul]
    · rw [Expression.number?_productOf (Expression.numbers?_cons h.number?_expression
        (Expression.numbers?_cons hunit (by rw [Expression.numbers?]))), List.prod_cons,
        List.prod_singleton]

/-- A number is the one with its modulus and an argument if and only if it is zero or that is an
argument of it. -/
theorem norm_mul_exp_eq_iff {z : ℂ} {t : ℝ} :
    ‖z‖ * (Circle.exp t : ℂ) = z ↔ z = 0 ∨ ∃ k : ℤ, t = z.arg + k * (2 * Real.pi) := by
  by_cases hz : z = 0
  · simp [hz]
  have hnorm : (‖z‖ : ℂ) ≠ 0 := by simpa using hz
  have hself : ‖z‖ * (Circle.exp z.arg : ℂ) = z := by
    rw [Circle.coe_exp]
    exact Complex.norm_mul_exp_arg_mul_I z
  rw [or_iff_right hz, ← Circle.exp_eq_exp]
  constructor
  · intro h
    exact Circle.coe_injective (mul_left_cancel₀ hnorm (h.trans hself.symm))
  · intro h
    rw [h, hself]

/-- What the modulus of a form is computed from: the squares of its parts and the double of their
sum. -/
def ModulusWithin (unit : AngleUnit) (v : Valuation ℂ) (f : Form) : Prop :=
  ∀ a b, f.splitComplex? = some (a, b) →
    v.AdmitsMul a a ∧ v.AdmitsMul b b ∧ (add (mul a a) (mul b b)).DoubleHasSign unit v

/-- The modulus with which a form is written is that of its value. -/
theorem value_modulus (hf : f.Constructible)
    (hodd : f.Everywhere (Atom.OddRadicandNonneg (Valuation.principal x functions)))
    (hwithin : f.ModulusWithin p.angleUnit (Valuation.principal x functions))
    (h : f.polarParts? p = some (modulus, θ)) :
    modulus.value (Valuation.principal x functions) =
      (‖f.value (Valuation.principal x functions)‖ : ℂ) := by
  obtain ⟨-, a, b, hsplit, hroot⟩ := polar_of_polarParts? h
  obtain ⟨ha, hb, hsign⟩ := hwithin a b hsplit
  exact value_root_squares (p := { p with complexFormat := .cartesian }) hf hsplit hodd ha hb hsign
    hroot

/-- **The polar format.**  A form that is not written with a modulus and an argument is written with
its value.  One that is has an exact modulus, and is written with its value if and only if the
fraction of `π` that is recognised is an argument of the value, whatever the angle unit is. -/
theorem number?_display_polar (hformat : p.complexFormat = .polar) (hf : f.Constructible)
    (hodd : f.Everywhere (Atom.OddRadicandNonneg (Valuation.principal x functions)))
    (hwithin : f.ModulusWithin p.angleUnit (Valuation.principal x functions))
    (hlegible : f.Legible (Arithmetic.principal x functions) (Valuation.principal x functions)) :
    let z := f.value (Valuation.principal x functions)
    (f.polarParts? p = none →
      (f.display p).number? (Arithmetic.principal x functions) = some z) ∧
    ∀ modulus θ, f.polarParts? p = some (modulus, θ) →
      modulus.value (Valuation.principal x functions) = (‖z‖ : ℂ) ∧
      (modulus.Legible (Arithmetic.principal x functions) (Valuation.principal x functions) →
        (f.display p).number? (Arithmetic.principal x functions) =
          some ((‖z‖ : ℂ) * Circle.exp (θ * Real.pi)) ∧
        ((f.display p).number? (Arithmetic.principal x functions) = some z ↔
          z = 0 ∨ ∃ k : ℤ, θ * Real.pi = z.arg + k * (2 * Real.pi))) := by
  intro z
  have hdisplay : f.display p = f.polar p := if_pos hformat
  rw [hdisplay]
  constructor
  · intro hnone
    rcases polar_of_polarParts?_eq_none hnone with heq | heq
    · rw [heq, hlegible.number?_expression]
    · rw [heq, number?_cartesian hf rfl hlegible]
  · intro modulus θ hparts
    have hmodulus := value_modulus hf hodd hwithin hparts
    refine ⟨hmodulus, fun hread => ?_⟩
    have hnumber := number?_polarExpression (θ := θ) hread
    rw [hmodulus, ← (polar_of_polarParts? hparts).1] at hnumber
    rw [hnumber]
    exact ⟨rfl, Option.some_inj.trans norm_mul_exp_eq_iff⟩

/-- The number `-3` is written with its value if the fraction that is recognised is one up to full
turns. -/
theorem number?_display_polar_neg_three :
    let p : Preferences := { complexFormat := .polar }
    let v := Valuation.principal (fun _ => 0) fun _ _ => 0
    let R := Arithmetic.principal (fun _ => 0) fun _ _ => 0
    (p.complexFormat = .polar ∧ (ofRat (-3)).Constructible ∧
      (ofRat (-3)).Everywhere (Atom.OddRadicandNonneg v) ∧
      (ofRat (-3)).ModulusWithin p.angleUnit v ∧ (ofRat (-3)).Legible R v) ∧
    ((ofRat (-3)).polarParts? p = none → ((ofRat (-3)).display p).number? R = some (-3)) ∧
    ∀ modulus θ, (ofRat (-3)).polarParts? p = some (modulus, θ) → modulus.value v = 3 ∧
      (modulus.Legible R v → (((ofRat (-3)).display p).number? R = some (-3) ↔
        ∃ k : ℤ, (θ : ℝ) = 1 + k * 2)) := by
  intro p v R
  have hodd : (ofRat (-3)).Everywhere (Atom.OddRadicandNonneg v) :=
    everywhere_iff.2 (monomialsIn_ofRat (List.forall_mem_nil _) _)
  have hwithin : (ofRat (-3)).ModulusWithin p.angleUnit v := by
    intro a b hparts
    have hsplit : (ofRat (-3)).splitComplex? = some (ofRat (-3), ofRat 0) := by decide +kernel
    have hsum : add (mul (ofRat (-3)) (ofRat (-3))) (mul (ofRat 0) (ofRat 0)) = ofRat 9 := by
      decide +kernel
    obtain ⟨rfl, rfl⟩ := Prod.mk.inj (Option.some.inj (hsplit.symm.trans hparts))
    rw [hsum]
    refine ⟨mulWithin_ofRat _ _ _, mulWithin_ofRat _ _ _, fun hneg => ?_, fun _ => ?_⟩
    · exact absurd hneg (by with_unfolding_all decide)
    · rw [value_ofRat]
      norm_num
  have hlegible : (ofRat (-3)).Legible R v := legible_ofRat _
  have hvalue : (ofRat (-3)).value v = ((-3 : ℝ) : ℂ) := by
    rw [value_ofRat]
    push_cast
    rfl
  obtain ⟨hsum, hpolar⟩ := number?_display_polar (p := p) rfl (.ofRat (-3)) hodd hwithin hlegible
  rw [hvalue] at hsum hpolar
  have hnorm : ‖((-3 : ℝ) : ℂ)‖ = 3 := by rw [Complex.norm_real]; norm_num
  have hcast : ((-3 : ℝ) : ℂ) = -3 := by push_cast; rfl
  refine ⟨⟨rfl, .ofRat (-3), hodd, hwithin, hlegible⟩, ?_, fun modulus θ hparts => ?_⟩
  · rw [← hcast]
    exact hsum
  · obtain ⟨hmodulus, hread⟩ := hpolar modulus θ hparts
    rw [hnorm] at hmodulus
    refine ⟨by exact_mod_cast hmodulus, fun hlegible => ?_⟩
    rw [← hcast, (hread hlegible).2, Complex.arg_ofReal_of_neg (by norm_num),
      or_iff_right (by norm_num)]
    refine exists_congr fun k => ?_
    rw [show Real.pi + k * (2 * Real.pi) = (1 + k * 2) * Real.pi by ring,
      mul_left_inj' Real.pi_ne_zero]

end Polar

end Form

/-! ### Numbers in doubles -/

theorem Expression.number?_ofFloat {K : Type*} [Field K] (R : Arithmetic K) (x : Float) :
    (ofFloat x).number? R = (Double.shortestRational? x).map fun q : Rat => (q : K) := by
  rw [ofFloat, number?, Float.ofBits_toBits]
  split
  · next hzero => rw [Double.shortestRational?_of_beq_zero hzero]; rfl
  · rfl

theorem Expression.exists_of_number?_productOf {K : Type*} [Field K] {R : Arithmetic K}
    {e e' : Expression} {y : K} (h : (productOf [e, e']).number? R = some y) :
    ∃ a b, e.number? R = some a ∧ e'.number? R = some b ∧ y = a * b := by
  change (product [e, e']).number? R = some y at h
  rw [number?, numbers?, numbers?, numbers?] at h
  obtain ⟨ys, hys, rfl⟩ := Option.map_eq_some_iff.1 h
  obtain ⟨a, ha, hys⟩ := Option.bind_eq_some_iff.1 hys
  obtain ⟨zs, hzs, rfl⟩ := Option.map_eq_some_iff.1 hys
  obtain ⟨b, hb, hzs⟩ := Option.bind_eq_some_iff.1 hzs
  cases hzs
  exact ⟨a, b, ha, hb, by rw [List.prod_cons, List.prod_singleton]⟩

namespace Complex

/-- The doubles denote two decimal numbers. -/
structure IsDecimal (z : Complex) (q r : Rat) : Prop where
  re : Double.shortestRational? z.re = some q
  im : Double.shortestRational? z.im = some r

variable {z : Complex} {q r : Rat} {p : Preferences} {x : Nat → ℂ}
  {functions : Builtin → List ℂ → ℂ}

/-- An imaginary part is read as the multiple of the imaginary unit by the decimal number. -/
theorem number?_imaginaryExpression {y : Float} (h : Double.shortestRational? y = some r) :
    (imaginaryExpression y).number? (Arithmetic.principal x functions) =
      some (r * Complex.I) := by
  have habs := Double.shortestRational?_abs h
  have hunit : (Expression.constant .imaginaryUnit).number? (Arithmetic.principal x functions) =
      some Complex.I := by
    rw [Expression.number?]
    rfl
  have hmultiple : (if y.abs == 1.0 then Expression.constant .imaginaryUnit
      else .productOf [.ofFloat y.abs, .constant .imaginaryUnit]).number?
        (Arithmetic.principal x functions) = some ((|r| : Rat) * Complex.I) := by
    split
    · next hone =>
      rw [hunit, Option.some.inj (habs.symm.trans (Double.shortestRational?_of_beq_one hone)),
        Rat.cast_one, one_mul]
    · have hfloat := Expression.number?_ofFloat (Arithmetic.principal x functions) y.abs
      rw [habs] at hfloat
      rw [Expression.number?_productOf (Expression.numbers?_cons hfloat
        (Expression.numbers?_cons hunit (by rw [Expression.numbers?]))), List.prod_cons,
        List.prod_singleton]
  unfold imaginaryExpression
  dsimp only
  split
  · next hneg =>
    have hneg := (Double.lt_zero_iff_of_shortestRational? h).1 hneg
    rw [abs_of_neg hneg] at hmultiple
    rw [Expression.number?_opposite hmultiple, Rat.cast_neg, neg_mul, neg_neg]
  · next hnonneg =>
    have hnonneg := mt (Double.lt_zero_iff_of_shortestRational? h).2 hnonneg
    rw [abs_of_nonneg (not_lt.1 hnonneg)] at hmultiple
    exact hmultiple

namespace IsDecimal

variable (h : z.IsDecimal q r)

include h

theorem isFinite : z.isFinite = true := by
  rw [Complex.isFinite, Double.isFinite_of_shortestRational? h.re,
    Double.isFinite_of_shortestRational? h.im]
  rfl

theorem beq_zero_im : (z.im == 0.0) = decide (r = 0) := by
  rw [Bool.eq_iff_iff, decide_eq_true_iff]
  exact Double.beq_zero_iff h.im

/-- The condition under which the polar format writes a modulus. -/
theorem isPolar : (p.complexFormat == .polar && (z.im != 0.0 || z.re < 0.0)) =
    decide (p.complexFormat = .polar ∧ (r ≠ 0 ∨ q < 0)) := by
  have hre := Double.lt_zero_iff_of_shortestRational? h.re
  rw [bne, h.beq_zero_im, Bool.eq_iff_iff]
  simp [hre]

/-- Real and imaginary part are read as the decimal numbers. -/
theorem number?_display (hplain : p.complexFormat = .polar → r = 0 ∧ 0 ≤ q) :
    (z.display p).number? (Arithmetic.principal x functions) =
      some (q + r * Complex.I) := by
  have hnotPolar : ¬ (p.complexFormat = .polar ∧ (r ≠ 0 ∨ q < 0)) := fun hpolar => by
    obtain ⟨hr, hq⟩ := hplain hpolar.1
    exact hpolar.2.elim (fun hne => hne hr) hq.not_gt
  have hre := Expression.number?_ofFloat (Arithmetic.principal x functions) z.re
  have him : (imaginaryExpression z.im).number? (Arithmetic.principal x functions) =
      some (r * Complex.I) := number?_imaginaryExpression h.im
  rw [h.re] at hre
  rw [display, h.isFinite, h.isPolar, decide_eq_false hnotPolar, h.beq_zero_im]
  rw [if_neg (by decide), if_neg Bool.false_ne_true]
  split
  · next hr =>
    rw [hre, of_decide_eq_true hr, Rat.cast_zero, zero_mul, add_zero]
    rfl
  · split
    · next hq =>
      rw [him, (Double.beq_zero_iff h.re).1 hq, Rat.cast_zero, zero_add]
    · rw [Expression.number?_sumOf (Expression.numbers?_cons hre
        (Expression.numbers?_cons him (by rw [Expression.numbers?]))), List.sum_cons,
        List.sum_singleton]

/-- The polar format writes a number that is not real, or negative, with its modulus. -/
theorem display_eq (hformat : p.complexFormat = .polar) (hz : r ≠ 0 ∨ q < 0) :
    z.display p = polarExpression p.digits z := by
  rw [display, h.isFinite, h.isPolar, decide_eq_true ⟨hformat, hz⟩]
  rfl

end IsDecimal

/-- The argument of a point of the unit circle is read as a number if the point is. -/
theorem exists_of_number?_unitPower {angle : Expression} {negative : Bool} {u : ℂ}
    (h : (Form.unitPower angle negative).number? (Arithmetic.principal x functions) = some u) :
    ∃ t, angle.number? (Arithmetic.principal x functions) = some t := by
  have hexponent : ∀ {y}, (Expression.productOf [angle, .constant .imaginaryUnit]).number?
      (Arithmetic.principal x functions) = some y →
        ∃ t, angle.number? (Arithmetic.principal x functions) = some t := fun h =>
    (Expression.exists_of_number?_productOf h).imp fun _ ⟨_, ht, _⟩ => ht
  unfold Form.unitPower at h
  dsimp only at h
  rw [Expression.number?] at h
  obtain ⟨b, -, h⟩ := Option.bind_eq_some_iff.1 h
  obtain ⟨k, hk, -⟩ := Option.bind_eq_some_iff.1 h
  cases negative with
  | false => exact hexponent hk
  | true =>
    rw [if_pos rfl, Expression.number?] at hk
    obtain ⟨y, hy, -⟩ := Option.map_eq_some_iff.1 hk
    exact hexponent hy

/-- What is written with a modulus and an argument is read as the number that has the decimal numbers
for these. -/
theorem exists_of_number?_polarExpression {digits : Nat} {y : ℂ}
    (h : (polarExpression digits z).number? (Arithmetic.principal x functions) = some y) :
    ∃ m t, Double.shortestRational? (Double.roundSignificant z.norm digits) = some m ∧
      Double.shortestRational? (Double.roundSignificant z.arg digits) = some t ∧
      y = m * Circle.exp t := by
  unfold polarExpression at h
  dsimp only at h
  generalize Double.roundSignificant z.norm digits = modulus at h
  generalize Double.roundSignificant z.arg digits = argument at h
  obtain ⟨a, u, ha, hu, rfl⟩ := Expression.exists_of_number?_productOf h
  obtain ⟨s, hs⟩ := exists_of_number?_unitPower hu
  rw [Expression.number?_ofFloat] at ha hs
  obtain ⟨m, hm, rfl⟩ := Option.map_eq_some_iff.1 ha
  obtain ⟨magnitude, habs, rfl⟩ := Option.map_eq_some_iff.1 hs
  obtain ⟨t, ht, rfl⟩ := Double.exists_of_shortestRational?_abs habs
  refine ⟨m, t, hm, ht, congrArg _ ?_⟩
  have hangle : (Expression.ofFloat argument.abs).number? (Arithmetic.principal x functions) =
      some (((|t| : Rat) : ℝ) : ℂ) := by
    rw [Expression.number?_ofFloat, habs, Complex.ofReal_ratCast]
    rfl
  have hunit := Form.number?_unitPower hangle (decide (argument < 0.0))
  have hsign : (if decide (argument < 0.0) then -((|t| : Rat) : ℝ) else ((|t| : Rat) : ℝ)) = t := by
    rw [decide_eq_decide.2 (Double.lt_zero_iff_of_shortestRational? ht)]
    by_cases hneg : t < 0
    · rw [if_pos (decide_eq_true hneg), abs_of_neg hneg, Rat.cast_neg, neg_neg]
    · rw [if_neg (by simpa using hneg), abs_of_nonneg (not_lt.1 hneg)]
  rw [hsign] at hunit
  exact Option.some.inj (hu.symm.trans hunit)

end Complex

end Resolvent

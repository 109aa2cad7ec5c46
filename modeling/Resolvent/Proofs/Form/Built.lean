import Resolvent.Proofs.Form.Nonvanishing

/-!
# The ring of polynomial expressions

`Form.Built f φ` says that the form `f` is made of rational numbers, the imaginary unit, the circle
number, Euler's number and symbols by the arithmetic that computes `φ` from the values of the
symbols and the two numbers.  Powers may be negative, and forms may be divided, where what is
inverted has no zeros; single terms are of this kind (`Form.Built.ne_zero_of_singleTerm?`).  No
exponent leaves the range of 32 bits on the way.

Such forms are Laurent polynomials with the values that the arithmetic computes
(`Form.Built.sound`), so two of them are equal exactly if they compute the same function
(`Form.Built.eq_iff`), and they obey the laws of a commutative ring (`Form.canonical_of_built`).
-/

namespace Resolvent.Form

/-! ### Exponents in range -/

/-- No exponent leaves its range when two forms are multiplied. -/
def MulInRange (f g : Form) : Prop := MulWithin InRange f g

/-- No exponent leaves its range when a power is multiplied out. -/
def PowInRange (f : Form) (k : Int) : Prop :=
  PowWithin InRange (normalize (unfoldings f.depth)) f k

/-- No exponent leaves its range when a form is inverted. -/
def InverseInRange (f : Form) : Prop :=
  InverseWithin InRange (normalize (unfoldings f.depth)) maxRationalizations f

/-- No exponent leaves its range when a form is divided by another one. -/
def DivideInRange (f g : Form) : Prop :=
  g.InverseInRange ∧ ∀ i, g.inverse? = some i → MulInRange f i

instance (c : Rat) (factors : List (Atom × Int)) : Decidable (InRange c factors) :=
  inferInstanceAs (Decidable (∀ x ∈ Monomial.collectFactors factors, Width.isInt32 x.2 = true))

instance (f g : Form) : Decidable (MulInRange f g) :=
  inferInstanceAs (Decidable (∀ s ∈ f.terms, ∀ t ∈ g.terms, s.1.isOne = false →
    t.1.isOne = false → InRange (s.2 * t.2) (s.1.factors ++ t.1.factors)))

variable {f g h : Form}

theorem InRange.congr {c d : Rat} {xs ys : List (Atom × Int)} (hr : InRange c xs)
    (h : ∀ a, Monomial.exponentSum a xs = Monomial.exponentSum a ys) : InRange d ys := by
  intro x hx
  refine hr x (Monomial.mem_collectFactors.2 ?_)
  rw [h]
  exact Monomial.mem_collectFactors.1 hx

theorem MulInRange.comm (h : MulInRange f g) : MulInRange g f :=
  fun s hs t ht hs1 ht1 => (h t ht s hs ht1 hs1).congr fun a => by
    rw [Monomial.exponentSum_append, Monomial.exponentSum_append, Int.add_comm]

theorem MulInRange.add (hg : MulInRange f g) (hh : MulInRange f h) : MulInRange f (add g h) := by
  intro s hs t ht hs1 ht1
  -- every monomial of the sum is one of its summands
  rcases fst_of_mem_mergeTerms g.terms h.terms t ht with hmem | hmem
  · obtain ⟨u, hu, heq⟩ := List.mem_map.1 hmem
    rw [← heq] at ht1 ⊢
    exact hg s hs u hu hs1 ht1
  · obtain ⟨u, hu, heq⟩ := List.mem_map.1 hmem
    rw [← heq] at ht1 ⊢
    exact hh s hs u hu hs1 ht1

/-! ### Expressions -/

/-- The form is built by the arithmetic that computes a function of the symbols and of the numbers
without algebraic relations. -/
inductive Built : Form → (Assignment → ℂ) → Prop
  /-- A rational number. -/
  | rat (q : Rat) : Built (ofRat q) fun _ => q
  /-- A symbol. -/
  | symbol (id : Nat) : Built (Form.symbol id) fun z => z (.symbol id)
  /-- The circle number. -/
  | pi : Built Form.pi fun z => z .pi
  /-- Euler's number. -/
  | e : Built Form.e fun z => z .e
  /-- The imaginary unit. -/
  | imaginaryUnit : Built Form.imaginaryUnit fun _ => Complex.I
  /-- A sum. -/
  | add {f g : Form} {φ ψ : Assignment → ℂ} (hf : Built f φ) (hg : Built g ψ) :
      Built (f.add g) fun z => φ z + ψ z
  /-- A difference. -/
  | sub {f g : Form} {φ ψ : Assignment → ℂ} (hf : Built f φ) (hg : Built g ψ) :
      Built (f.sub g) fun z => φ z - ψ z
  /-- An opposite. -/
  | neg {f : Form} {φ : Assignment → ℂ} (hf : Built f φ) : Built f.neg fun z => -φ z
  /-- A multiple. -/
  | scale {f : Form} {φ : Assignment → ℂ} (hf : Built f φ) (k : Rat) :
      Built (f.scale k) fun z => k * φ z
  /-- A product. -/
  | mul {f g : Form} {φ ψ : Assignment → ℂ} (hf : Built f φ) (hg : Built g ψ)
      (hrange : MulInRange f g) : Built (f.mul g) fun z => φ z * ψ z
  /-- A power.  If its exponent is negative, the base has no zeros. -/
  | pow {f p : Form} {φ : Assignment → ℂ} {k : Int} (hf : Built f φ) (hk : 0 ≤ k ∨ ∀ z, φ z ≠ 0)
      (hrange : f.PowInRange k) (hp : f.pow? k = some p) : Built p fun z => φ z ^ k
  /-- A quotient by a form without zeros. -/
  | divide {f g q : Form} {φ ψ : Assignment → ℂ} (hf : Built f φ) (hg : Built g ψ)
      (hne : ∀ z, ψ z ≠ 0) (hrange : f.DivideInRange g) (hq : f.divide? g = some q) :
      Built q fun z => φ z / ψ z

theorem value_ofAtom_of_isBasic {a : Atom} (ha : a.IsBasic) (z : Assignment) :
    (ofAtom a).value z.valuation = z.valuation a := by
  have hrange : InRange 1 [(a, 1)] := by
    intro x hx
    rw [Monomial.eq_of_mem_collectFactors_singleton hx]
    rfl
  have hbasic : ∀ x ∈ [(a, (1 : Int))], x.1.IsBasic := fun x hx => by rwa [List.mem_singleton.1 hx]
  rw [ofAtom, value_ofFactors (hrange.admits z.valuation_ne_zero hbasic _)]
  simp [Monomial.factorsValue_cons, Monomial.factorsValue_nil]

namespace Built

variable {φ ψ χ : Assignment → ℂ}

/-- The arithmetic of Laurent polynomials: what is built has the values that are computed. -/
theorem sound (hf : f.Built φ) : f.IsLaurent ∧ ∀ z : Assignment, f.value z.valuation = φ z := by
  induction hf with
  | rat q => exact ⟨isLaurent_ofRat q, fun z => value_ofRat _ q⟩
  | symbol id =>
    exact ⟨isLaurent_ofAtom trivial, fun z => value_ofAtom_of_isBasic (a := .symbol id) trivial z⟩
  | pi => exact ⟨isLaurent_ofAtom trivial, fun z => value_ofAtom_of_isBasic (a := .pi) trivial z⟩
  | e => exact ⟨isLaurent_ofAtom trivial, fun z => value_ofAtom_of_isBasic (a := .e) trivial z⟩
  | imaginaryUnit =>
    refine ⟨isLaurent_ofAtom trivial, fun z => ?_⟩
    rw [← z.valuation_imaginaryUnit]
    exact value_ofAtom_of_isBasic (a := .imaginaryUnit) trivial z
  | add _ _ hf hg => exact ⟨hf.1.add hg.1, fun z => by rw [value_add, hf.2, hg.2]⟩
  | sub _ _ hf hg => exact ⟨hf.1.sub hg.1, fun z => by rw [value_sub, hf.2, hg.2]⟩
  | neg _ hf => exact ⟨hf.1.neg, fun z => by rw [value_neg, hf.2]⟩
  | scale _ k hf => exact ⟨hf.1.scale k, fun z => by rw [value_scale, hf.2]⟩
  | mul _ _ hrange hf hg =>
    refine ⟨hf.1.mulWith hg.1 _, fun z => ?_⟩
    rw [value_mul (MulWithin.admits z.valuation_ne_zero hrange hf.1 hg.1 _), hf.2, hg.2]
  | @pow f p φ k _ hk hrange hp hf =>
    obtain ⟨hlaurent, hvalue⟩ := hf
    rw [pow?, powWith] at hp
    split at hp
    · cases hp
    · next hsmall =>
      have hrange := hrange.resolve_left hsmall
      split at hp
      · next hneg =>
        rw [if_pos hneg] at hrange
        obtain ⟨i, hi, rfl⟩ := Option.map_eq_some_iff.1 hp
        have hne := hk.resolve_left (by omega)
        obtain ⟨hil, hiv⟩ := hlaurent.inverseWith (fun z => by rw [hvalue]; exact hne z) hrange.1 hi
        refine ⟨hil.powNatWith _ _, fun z => ?_⟩
        have hz := eq_inv_of_mul_eq_one_left (hiv z)
        rw [(soundOn_normalize _).value_powNatWith
          ((hrange.2 i hi).admits z.valuation_ne_zero hil), hz, hvalue, inv_pow, ← zpow_natCast,
          ← zpow_neg]
        congr 1
        omega
      · next hpos =>
        rw [if_neg hpos] at hrange
        cases hp
        refine ⟨hlaurent.powNatWith _ _, fun z => ?_⟩
        rw [(soundOn_normalize _).value_powNatWith (hrange.admits z.valuation_ne_zero hlaurent),
          hvalue, ← zpow_natCast]
        congr 1
        omega
  | divide _ _ hne hrange hq hf hg =>
    obtain ⟨i, hi, rfl⟩ := Option.map_eq_some_iff.1 hq
    obtain ⟨hil, hiv⟩ := hg.1.inverseWith (fun z => by rw [hg.2]; exact hne z) hrange.1 hi
    refine ⟨hf.1.mulWith hil _, fun z => ?_⟩
    rw [value_mul (MulWithin.admits z.valuation_ne_zero (hrange.2 i hi) hf.1 hil _), hf.2,
      eq_inv_of_mul_eq_one_left (hiv z), hg.2, ← div_eq_mul_inv]

/-- **Canonical forms are unique**: forms that are built are equal exactly if the arithmetic that
builds them computes the same function. -/
theorem eq_iff (hf : f.Built φ) (hg : g.Built ψ) : f = g ↔ ∀ z, φ z = ψ z := by
  constructor
  · rintro rfl z
    rw [← hf.sound.2, hg.sound.2]
  · intro h
    exact hf.sound.1.eq_of_value hg.sound.1 fun z => by rw [hf.sound.2, hg.sound.2, h z]

theorem isZero_iff (hf : f.Built φ) : f.isZero = true ↔ ∀ z, φ z = 0 := by
  rw [Form.isZero_iff]
  exact hf.eq_iff (g := zero) (ψ := fun _ => ((0 : Rat) : ℂ)) (.rat 0) |>.trans (by simp)

/-- A single term has no zeros. -/
theorem ne_zero_of_singleTerm? (hf : f.Built φ) {t : Monomial × Rat} (ht : f.singleTerm? = some t)
    (z : Assignment) : φ z ≠ 0 := by
  obtain ⟨hlaurent, hvalue⟩ := hf.sound
  have hmem : t ∈ f.terms := by
    rw [terms_of_singleTerm? ht]
    exact List.mem_singleton_self t
  obtain ⟨hq, hm⟩ := hlaurent.terms t hmem
  rw [← hvalue, value_singleTerm _ ht]
  exact mul_ne_zero (by exact_mod_cast hq)
    (Monomial.factorsValue_ne_zero fun x hx => z.valuation_ne_zero x.1 (hm.basic x hx))

end Built

variable {φ ψ χ : Assignment → ℂ}

/-- **The ring of polynomial expressions.**  Forms that are built have the values that are computed,
are equal exactly if they compute the same function, and obey the laws of a commutative ring. -/
theorem canonical_of_built (hf : f.Built φ) (hg : g.Built ψ) (hh : h.Built χ) :
    (∀ z : Assignment, f.value z.valuation = φ z) ∧
    (f = g ↔ ∀ z, φ z = ψ z) ∧
    (f.isZero = true ↔ ∀ z, φ z = 0) ∧
    (∀ t, g.singleTerm? = some t → (∀ z, ψ z ≠ 0) ∧ ∃ q, f.divide? g = some q) ∧
    (add f g = add g f ∧ add (add f g) h = add f (add g h) ∧ add zero f = f ∧
      add f (neg f) = zero) ∧
    (MulInRange f g → mul f g = mul g f) ∧
    (MulInRange f g → MulInRange g h → MulInRange (mul f g) h → MulInRange f (mul g h) →
      mul (mul f g) h = mul f (mul g h)) ∧
    mul one f = f ∧
    (MulInRange f g → MulInRange f h → mul f (add g h) = add (mul f g) (mul f h)) := by
  have hzero : zero.Built fun _ => ((0 : Rat) : ℂ) := .rat 0
  have hone : one.Built fun _ => ((1 : Rat) : ℂ) := .rat 1
  refine ⟨hf.sound.2, hf.eq_iff hg, hf.isZero_iff, fun t ht => ⟨hg.ne_zero_of_singleTerm? ht, ?_⟩,
    ⟨?_, ?_, ?_, ?_⟩, fun hfg => ?_, fun hfg hgh hl hr => ?_, ?_, fun hfg hfh => ?_⟩
  · have hne : g ≠ zero := by
      rintro rfl
      cases ht
    obtain ⟨i, hi⟩ := exists_inverse? hne
    exact ⟨mul f i, by rw [divide?, hi, Option.map_some]⟩
  · exact ((hf.add hg).eq_iff (hg.add hf)).2 fun z => by ring
  · exact (((hf.add hg).add hh).eq_iff (hf.add (hg.add hh))).2 fun z => by ring
  · exact ((hzero.add hf).eq_iff hf).2 fun z => by simp
  · exact ((hf.add hf.neg).eq_iff hzero).2 fun z => by simp
  · exact ((hf.mul hg hfg).eq_iff (hg.mul hf hfg.comm)).2 fun z => by ring
  · exact (((hf.mul hg hfg).mul hh hl).eq_iff (hf.mul (hg.mul hh hgh) hr)).2 fun z => by ring
  · exact ((hone.mul hf (ofRat_mulWithin _ 1 f)).eq_iff hf).2 fun z => by simp
  · exact ((hf.mul (hg.add hh) (hfg.add hfh)).eq_iff ((hf.mul hg hfg).add (hf.mul hh hfh))).2
      fun z => by ring

/-- The sum of a symbol and the imaginary unit. -/
def symbolPlusUnit : Form := add (symbol 0) imaginaryUnit

/-- The reciprocal of a symbol. -/
def symbolInverse : Form := ⟨[(⟨[(.symbol 0, -1)]⟩, 1)]⟩

theorem symbol_zero_eq : symbol 0 = firstSymbol := by decide +kernel

theorem inverse?_symbol : (symbol 0).inverse? = some symbolInverse := by decide +kernel

theorem inverseInRange_symbol : (symbol 0).InverseInRange := by
  rw [symbol_zero_eq]
  exact .inr (by decide : InRange 1⁻¹ [(.symbol 0, -1)])

/-- A sum divided by a symbol. -/
theorem built_quotient : (mul symbolPlusUnit symbolInverse).Built
    fun z => (z (.symbol 0) + Complex.I) / z (.symbol 0) := by
  refine .divide (.add (.symbol 0) .imaginaryUnit) (.symbol 0) (fun z => (z (.symbol 0)).ne_zero)
    ⟨inverseInRange_symbol, fun i hi => ?_⟩ ?_
  · obtain rfl := Option.some.inj (hi.symm.trans inverse?_symbol)
    decide +kernel
  · rw [divide?, inverse?_symbol]
    rfl

/-- The same with a negative power. -/
theorem built_power : (add one (mul imaginaryUnit symbolInverse)).Built
    fun z => ((1 : Rat) : ℂ) + Complex.I * z (.symbol 0) ^ (-1 : Int) := by
  refine .add (.rat 1)
    (.mul .imaginaryUnit (.pow (.symbol 0) (.inr fun z => (z _).ne_zero) ?_ ?_) ?_)
  · refine .inr ⟨inverseInRange_symbol, fun i hi => .inr ?_⟩
    obtain rfl := Option.some.inj (hi.symm.trans inverse?_symbol)
    exact (by decide : InRange 1 [(.symbol 0, -1)])
  · decide +kernel
  · decide +kernel

/-- The quotient of `x + i` by `x` and the sum of one and `i / x` are one form, and multiplying them
and the circle number is associative. -/
theorem canonical_of_built_quotient :
    (mul symbolPlusUnit symbolInverse).Built
      (fun z => (z (.symbol 0) + Complex.I) / z (.symbol 0)) ∧
    (add one (mul imaginaryUnit symbolInverse)).Built
      (fun z => ((1 : Rat) : ℂ) + Complex.I * z (.symbol 0) ^ (-1 : Int)) ∧
    Form.pi.Built (fun z => z .pi) ∧
    mul symbolPlusUnit symbolInverse = add one (mul imaginaryUnit symbolInverse) ∧
    mul (mul (mul symbolPlusUnit symbolInverse) (add one (mul imaginaryUnit symbolInverse))) pi =
      mul (mul symbolPlusUnit symbolInverse)
        (mul (add one (mul imaginaryUnit symbolInverse)) pi) := by
  have hall := canonical_of_built built_quotient built_power .pi
  refine ⟨built_quotient, built_power, .pi, hall.2.1.2 fun z => ?_, hall.2.2.2.2.2.2.1
    (by decide +kernel) (by decide +kernel) (by decide +kernel) (by decide +kernel)⟩
  have hne := (z (.symbol 0)).ne_zero
  rw [zpow_neg_one]
  field_simp
  push_cast
  ring

end Resolvent.Form

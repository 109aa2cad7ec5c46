import Resolvent.Form.OfExpression
import Resolvent.Proofs.Expression.Along
import Resolvent.Proofs.Expression.Identifiers
import Resolvent.Proofs.Form.Constant
import Resolvent.Proofs.Form.GeneralRoot
import Resolvent.Proofs.Form.Reachable

/-!
# Forms that expressions have

`Form.Made` says how the form of an expression comes about: from numbers, constants and symbols, by
arithmetic, and by roots, functions and powers that were found to have no simpler value.  The form
of every expression is made so (`Expression.form_made`), and what is made so is in normal form
(`Form.Made.isNormal`).
-/

namespace Resolvent

/-- The circle number, Euler's number and the imaginary unit. -/
def Atom.IsConstant : Atom → Prop
  | .pi | .e | .imaginaryUnit => True
  | _ => False

/-- The forms that expressions have whose symbols are in a class. -/
inductive Form.Made (p : Preferences) (S : Nat → Prop) : Form → Prop
  /-- Rational numbers. -/
  | rational (q : Rat) : Made p S (ofRat q)
  /-- Products of constants. -/
  | constants (c : Rat) {factors : List (Atom × Int)} (h : ∀ x ∈ factors, x.1.IsConstant) :
      Made p S (ofFactors c factors)
  /-- Symbols of the class. -/
  | symbol {id : Nat} (h : S id) : Made p S (symbol id)
  /-- Roots of whole numbers. -/
  | root {q : Rat} {n : Nat} (h : (Atom.root q n).IsNormal) (hden : q.den = 1) :
      Made p S (ofAtom (.root q n))
  /-- Roots that have no simpler value. -/
  | radical {f : Form} {n : Nat} (hf : Made p S f) (hne : f ≠ zero) (hlow : 2 ≤ n)
      (hhigh : n ≤ maxRootIndex) (h : root p f n = .ok (radical f n)) : Made p S (radical f n)
  /-- Functions that have no exact value. -/
  | apply {g : Builtin} {args : List Form} (hargs : ∀ f ∈ args, Made p S f)
      (h : ofFunction p g.code args = .ok (ofAtom (.apply g args))) :
      Made p S (ofAtom (.apply g args))
  /-- Powers that are not multiplied out. -/
  | power {f g : Form} (hf : Made p S f) (hg : Made p S g)
      (h : f ≠ Form.e → power p f g = .ok (ofAtom (.power f g))) : Made p S (ofAtom (.power f g))
  /-- Sums. -/
  | add {f g : Form} (hf : Made p S f) (hg : Made p S g) : Made p S (f.add g)
  /-- Opposites. -/
  | neg {f : Form} (hf : Made p S f) : Made p S f.neg
  /-- Multiples. -/
  | scale {f : Form} (hf : Made p S f) (k : Rat) : Made p S (f.scale k)
  /-- Products. -/
  | mul {f g : Form} (hf : Made p S f) (hg : Made p S g) : Made p S (f.mul g)
  /-- Whole powers. -/
  | pow {f g : Form} {k : Int} (hf : Made p S f) (hg : f.pow? k = some g) : Made p S g
  /-- Inverses. -/
  | inverse {f g : Form} (hf : Made p S f) (hg : f.inverse? = some g) : Made p S g
  /-- Real parts. -/
  | realPart {f : Form} (hf : Made p S f) : Made p S f.realPart
  /-- Imaginary parts. -/
  | imaginaryPart {f : Form} (hf : Made p S f) : Made p S f.imaginaryPart

variable {p : Preferences} {S : Nat → Prop}

namespace Form

variable {f g : Form}

/-! ### Normal forms -/

theorem isNormal_of_isConstant {a : Atom} (h : a.IsConstant) : a.IsNormal := by
  cases a with
  | pi => exact .pi
  | e => exact .e
  | imaginaryUnit => exact .imaginaryUnit
  | _ => exact h.elim

theorem isNormal_ofFactors_of_constants (c : Rat) {factors : List (Atom × Int)}
    (h : ∀ x ∈ factors, x.1.IsConstant) : (ofFactors c factors).IsNormal := by
  have hdepth : ∀ x ∈ factors, x.1.depth ≤ 0 := by
    intro x hx
    have hx := h x hx
    obtain ⟨a, k⟩ := x
    cases a with
    | pi | e | imaginaryUnit => exact (Atom.depth.eq_def _).le
    | _ => exact hx.elim
  have hunfoldable : Unfoldable 0 0 factors := by
    refine ⟨fun x hx => (isNormal_of_isConstant (h x hx)).proper, hdepth, fun hx => ?_⟩
    obtain ⟨k, hk⟩ := Monomial.exists_of_mem_collectFactors hx
    exact (h _ hk).elim
  exact isNormal_of_over (sorted_normalize _ _ _)
    (settledAt _ hunfoldable (hunfoldable.settlesIn (Nat.zero_le _)) c)

/-- The forms that expressions have are in normal form. -/
theorem Made.isNormal (h : f.Made p S) : f.IsNormal := by
  induction h with
  | rational q => exact isNormal_ofRat q
  | constants c h => exact isNormal_ofFactors_of_constants c h
  | symbol _ => exact isNormal_ofAtom (Atom.IsNormal.symbol _)
  | root h _ => exact isNormal_ofAtom h.proper
  | radical _ hne hlow hhigh _ hf => exact isNormal_ofAtom (Atom.IsNormal.radical hf hne hlow hhigh)
  | apply _ _ hargs => exact isNormal_ofAtom (Atom.IsNormal.apply _ hargs)
  | power _ _ _ hf hg => exact isNormal_ofAtom (Atom.IsNormal.power hf hg)
  | add _ _ hf hg => exact hf.add hg
  | neg _ hf => exact hf.neg
  | scale _ k hf => exact hf.scale k
  | mul _ _ hf hg => exact hf.mul hg
  | pow _ hg hf => exact hf.pow hg
  | inverse _ hg hf => exact hf.inverse hg
  | realPart _ hf => exact hf.realPart
  | imaginaryPart _ hf => exact hf.imaginaryPart

/-! ### Constants and parts -/

theorem made_constant {a : Atom} (h : a.IsConstant) : (ofAtom a).Made p S :=
  .constants 1 fun x hx => by rwa [List.mem_singleton.1 hx]

theorem made_imaginaryUnit : imaginaryUnit.Made p S := made_constant trivial

theorem Made.divide (hf : f.Made p S) (hg : g.Made p S) {q : Form} (hq : f.divide? g = some q) :
    q.Made p S := by
  obtain ⟨i, hi, rfl⟩ := Option.map_eq_some_iff.1 hq
  exact hf.mul (hg.inverse hi)

theorem Made.split (hf : f.Made p S) {re im : Form} (hs : f.splitComplex? = some (re, im)) :
    re.Made p S ∧ im.Made p S := by
  unfold splitComplex? at hs
  split at hs
  · obtain ⟨rfl, rfl⟩ := Prod.mk.inj (Option.some.inj hs)
    exact ⟨hf.realPart, hf.imaginaryPart⟩
  · cases hs

/-! ### Roots of rational numbers -/

section Rational

variable {q : Rat} {n : Nat}

theorem extract_den (hq : q.den = 1) : (PerfectPower.extract q n).2.den = 1 := by
  unfold PerfectPower.extract PerfectPower.extractWith
  split
  · exact hq
  · exact Rat.den_natCast _

/-- The numerator of a rational number times a power of its denominator is a whole number. -/
theorem den_mul_pow_den (q : Rat) (hn : 1 ≤ n) : (q * Rat.pow q.den n).den = 1 := by
  obtain ⟨m, rfl⟩ : ∃ m, n = m + 1 := Nat.exists_eq_add_of_le' hn
  have hpow : q * Rat.pow q.den (m + 1) = ((q.num * (q.den : Int) ^ m : Int) : Rat) := by
    change q * (q.den : Rat) ^ (m + 1) = _
    rw [pow_succ', ← mul_assoc, Rat.mul_den_eq_num]
    push_cast
    rfl
  rw [hpow]
  exact Rat.den_intCast _

theorem root_ofRat_of_pos (hq : 0 < q) (hn : 2 ≤ n) :
    root p (ofRat q) n = .ok (positiveRoot q n) := by
  rw [root_ofRat hq.ne' hn, rationalRoot, Rational.magnitude_of_nonneg (not_lt.2 hq.le)]
  exact if_pos hq.le

/-- A root of a whole number with a coefficient. -/
theorem made_ofFactors_root (h : (Atom.root q n).IsNormal) (hden : q.den = 1) {c : Rat}
    (hc : c ≠ 0) : (ofFactors c [(.root q n, 1)]).Made p S := by
  have hscale := (Made.root (p := p) (S := S) h hden).scale c
  cases h with
  | root hq hone hlow hhigh hextract =>
    rw [ofAtom, ofFactors_root hlow hextract hone one_ne_zero, ofTerm, if_neg one_ne_zero,
      Form.scale, if_neg hc] at hscale
    rw [ofFactors_root hlow hextract hone hc, ofTerm, if_neg hc]
    simpa using hscale

theorem made_positiveRoot (hq : 0 < q) (hlow : 2 ≤ n) (hhigh : n ≤ maxRootIndex) :
    (positiveRoot q n).Made p S := by
  have hroot := root_ofRat_of_pos (p := p) hq hlow
  rcases hfits : (Width.isInt128 q.den && Width.isInt32 n) with - | -
  · -- the denominator is too large for the root to be taken
    have heq : positiveRoot q n = radical (ofRat q) n := by
      rw [positiveRoot, hfits]
      rfl
    rw [heq] at hroot ⊢
    exact .radical (.rational q) (ofRat_ne_zero hq.ne') hlow hhigh hroot
  · have hden : (0 : Rat) < q.den := by exact_mod_cast q.den_pos
    have hpos : 0 < q * Rat.pow q.den n := mul_pos hq (pow_pos hden n)
    obtain ⟨-, ht, hu⟩ :=
      PerfectPower.extractWith_factorization PerfectPower.estimate hpos n
    have hagain := PerfectPower.extractWith_extractWith PerfectPower.estimate
      (q * Rat.pow q.den n) n
    have hwhole := extract_den (n := n) (den_mul_pow_den q (by omega : 1 ≤ n))
    rw [positiveRoot, hfits, if_pos rfl]
    dsimp only
    split
    · exact .rational _
    · next hone =>
      exact made_ofFactors_root (.root hu hone hlow hhigh hagain) hwhole (div_pos ht hden).ne'

theorem made_sixthTurn : sixthTurn.Made p S :=
  ((Made.rational 1).add ((made_positiveRoot (by decide) (by decide) (by decide)).mul
    made_imaginaryUnit)).scale _

theorem made_rationalRoot (hq : q ≠ 0) (hlow : 2 ≤ n) (hhigh : n ≤ maxRootIndex)
    (h : rationalRoot p.complexFormat q n = .ok g) : g.Made p S := by
  have hmagnitude : (positiveRoot (Rational.magnitude q) n).Made p S :=
    made_positiveRoot (pos_magnitude hq) hlow hhigh
  have hroot := (root_ofRat (p := p) hq hlow).trans h
  unfold rationalRoot at h
  dsimp only at h
  split at h
  · cases h
    exact hmagnitude
  · split at h
    · split at h
      · cases h
        exact hmagnitude.neg
      · cases h
    · split at h
      · cases h
        exact hmagnitude.mul made_imaginaryUnit
      · split at h
        · cases h
          exact hmagnitude.mul made_sixthTurn
        · cases h
          exact .radical (.rational q) (ofRat_ne_zero hq) hlow hhigh hroot

theorem made_squareRootOfSum? {a b : Rat} (hb : b ≠ 0) (h : squareRootOfSum? a b = some g) :
    g.Made p S := by
  unfold squareRootOfSum? at h
  split at h
  · cases h
  · next modulus hmodulus =>
    obtain ⟨hlow, hhigh⟩ := abs_lt.1 (abs_lt_of_toRat?_positiveRoot hb hmodulus).2
    have hre : (positiveRoot ((modulus + a) * (1 / 2)) 2).Made p S :=
      made_positiveRoot (by linarith) le_rfl (by decide)
    have him : (positiveRoot ((modulus - a) * (1 / 2)) 2).Made p S :=
      made_positiveRoot (by linarith) le_rfl (by decide)
    cases h
    refine hre.add (Made.mul ?_ made_imaginaryUnit)
    split
    · exact him.neg
    · exact him

end Rational

/-! ### Roots of forms -/

variable {n : Nat}

theorem Made.ne_zero_of_toRat? (hf : f.Made p S) (hne : f.isZero = false) {q : Rat}
    (h : f.toRat? = some q) : q ≠ 0 := by
  have hzeros : f.NoZeros := (hf.isNormal.over le_rfl).noZeros
  refine Form.ne_zero_of_toRat? hzeros ?_ h
  rintro rfl
  cases hne

theorem Made.generalRoot (hf : f.Made p S) (h : NoExactRoot p f n) (hlow : 2 ≤ n)
    (hhigh : n ≤ maxRootIndex) (hg : generalRoot p f n = .ok g) : g.Made p S := by
  have hne : ∀ {k : Form}, k.isZero = false → k ≠ zero := by
    rintro k hk rfl
    cases hk
  by_cases hplain : g = Form.radical f n
  · rw [hplain] at hg ⊢
    exact .radical hf (hne h.ne_zero) hlow hhigh ((h.root_eq hlow).trans hg)
  · obtain ⟨-, rfl, hneg⟩ := generalRoot_neg hg hplain
    exact (Made.radical hf.neg (hne h.neg.ne_zero) hlow hhigh
      ((h.neg.root_eq hlow).trans hneg)).mul made_imaginaryUnit

theorem Made.constantPower (hf : f.Made p S) {q : Rat} {factors : List (Atom × Int)}
    (h : f.constantPower? n = some (q, factors)) : q ≠ 0 ∧ ∀ x ∈ factors, x.1.IsConstant := by
  obtain ⟨m, hm, rfl, hconstants⟩ := constantPower?_eq_some h
  have hmem : (m, q) ∈ f.terms := by
    rw [terms_of_singleTerm? hm]
    exact List.mem_singleton_self _
  refine ⟨(hf.isNormal.arranged.terms _ hmem).1, fun x hx => ?_⟩
  obtain ⟨⟨a, k⟩, hy, rfl⟩ := List.mem_map.1 hx
  rcases (hconstants _ hy).1 with rfl | rfl <;> trivial

theorem Made.otherRoot (hf : f.Made p S) (hlow : 2 ≤ n) (hhigh : n ≤ maxRootIndex)
    (h : f.constantPower? n = none → NoExactRoot p f n) (hg : otherRoot p f n = .ok g) :
    g.Made p S := by
  unfold Form.otherRoot at hg
  split at hg
  · next hpower =>
    obtain ⟨hq, hconstants⟩ := hf.constantPower hpower
    obtain ⟨r, hr, rfl⟩ := Except.map_eq_ok_iff.1 hg
    exact (made_rationalRoot hq hlow hhigh hr).mul (.constants 1 hconstants)
  · next hpower => exact hf.generalRoot (h hpower) hlow hhigh hg

theorem gaussianParts?_ne_zero {a b : Rat} (h : f.gaussianParts? = some (a, b)) : b ≠ 0 := by
  unfold gaussianParts? at h
  split at h
  · cases h
  · split at h
    · obtain ⟨hb, heq⟩ := Option.ite_none_left_eq_some.1 h
      cases heq
      exact hb
    · cases h

theorem Made.takeRoot (hf : f.Made p S) (hhigh : n ≤ maxRootIndex) (hg : Form.root p f n = .ok g) :
    g.Made p S := by
  unfold Form.root at hg
  split at hg
  · cases hg
    exact hf
  · next hne =>
    obtain ⟨hlow, hzero⟩ : 2 ≤ n ∧ f.isZero = false := by
      simp at hne
      exact ⟨by omega, hne.2⟩
    split at hg
    · next hq => exact made_rationalRoot (hf.ne_zero_of_toRat? hzero hq) hlow hhigh hg
    · next hirrational =>
      unfold irrationalRoot at hg
      split at hg
      · next hparts =>
        refine hf.otherRoot hlow hhigh (fun hpower => ⟨hzero, hirrational, ?_, hpower⟩) hg
        intro a b hn hsome
        rw [if_pos hn, hsome] at hparts
        cases hparts
      · next a b hparts =>
        obtain ⟨hn, hparts⟩ := Option.ite_none_right_eq_some.1 hparts
        split at hg
        · cases hg
        · next hformat =>
          split at hg
          · next hr =>
            cases hg
            exact made_squareRootOfSum? (gaussianParts?_ne_zero hparts) hr
          · next hsum =>
            refine hf.otherRoot hlow hhigh (fun hpower => ⟨hzero, hirrational, ?_, hpower⟩) hg
            intro c d _ hsome
            cases hparts.symm.trans hsome
            exact ⟨hformat, hsum⟩

theorem Made.rootOrUnreal (hf : f.Made p S) (hhigh : n ≤ maxRootIndex)
    (hg : rootOrUnreal p f n = .ok g) : g.Made p S :=
  hf.takeRoot hhigh (rootOrUnreal_eq_ok_iff.1 hg)

/-! ### Exact values of functions -/

theorem made_ofHalfTurns (unit : AngleUnit) (q : Rat) : (ofHalfTurns unit q).Made p S := by
  unfold ofHalfTurns
  split
  · exact (made_constant (a := .pi) trivial).scale q
  · exact .rational _

theorem made_sine? {k : Int} (h : sine? k = some g) : g.Made p S := by
  have hroot : ∀ {q : Rat}, 0 < q → (positiveRoot q 2).Made p S := fun hq =>
    made_positiveRoot hq le_rfl (by decide)
  have htwo : positiveRoot 2 2 = sqrtOf 2 := by decide +kernel
  have hthree : positiveRoot 3 2 = sqrtOf 3 := by decide +kernel
  have hsmall : ∀ {j : Nat} {s : Form}, sineUpTo6? j = some s → s.Made p S := by
    intro j s hs
    unfold sineUpTo6? at hs
    split at hs
    · cases hs
      exact .rational 0
    · cases hs
      exact .rational _
    · cases hs
      exact (htwo ▸ hroot (by decide)).scale _
    · cases hs
      exact (hthree ▸ hroot (by decide)).scale _
    · cases hs
      exact .rational 1
    · cases hs
  obtain ⟨s, hs, rfl⟩ := Option.map_eq_some_iff.1 h
  split
  · exact hsmall hs
  · exact (hsmall hs).neg

theorem made_tangent? {k : Int} (h : tangent? k = some (some g)) : g.Made p S := by
  unfold tangent? at h
  split at h
  · next hs hc => exact (made_sine? hs).divide (made_sine? hc) (Option.some.inj h)
  · cases h

theorem made_logarithm? (h : f.logarithm? = some g) : g.Made p S := by
  unfold logarithm? at h
  split at h
  · cases h
    exact .rational 0
  · split at h
    · split at h
      · cases h
        exact .rational _
      · cases h
    · cases h

theorem made_decimalLogarithm? (h : f.decimalLogarithm? = some g) : g.Made p S := by
  unfold decimalLogarithm? at h
  split at h
  · obtain ⟨k, -, rfl⟩ := Option.map_eq_some_iff.1 h
    exact .rational _
  · cases h

theorem made_angleFunction? {unit : AngleUnit} {b : Builtin}
    (h : angleFunction? unit b f = .ok (some g)) : g.Made p S := by
  unfold angleFunction? at h
  split at h
  · cases h
  · split at h
    · exact made_sine? (Except.ok.inj h)
    · exact made_sine? (Except.ok.inj h)
    · split at h
      · cases h
      · next ht =>
        cases h
        exact made_tangent? ht
      · cases h

theorem made_inverseAngleFunction? {unit : AngleUnit} {b : Builtin}
    (h : inverseAngleFunction? unit b f = some g) : g.Made p S := by
  obtain ⟨q, -, hq⟩ := Option.bind_eq_some_iff.1 h
  obtain ⟨r, -, rfl⟩ := Option.map_eq_some_iff.1 hq
  exact made_ofHalfTurns _ _

theorem Made.exponential (hf : f.Made p S) : (exponential f).Made p S := by
  have hkept : (ofAtom (.power Form.e f)).Made p S :=
    .power (made_constant trivial) hf fun hne => absurd rfl hne
  have hpower : ∀ {a : Atom} {k : Int}, a.IsConstant → (ofFactors 1 [(a, k)]).Made p S :=
    fun ha => .constants 1 fun x hx => by rwa [List.mem_singleton.1 hx]
  unfold Form.exponential
  dsimp only
  split
  · exact .rational 1
  · split
    · split
      · exact hpower trivial
      · exact hkept
    · split
      · split
        · exact hpower trivial
        · exact hkept
      · exact hkept
    · exact hkept

theorem Made.absolute (hf : f.Made p S) (hg : absolute? p f = some g) : g.Made p S := by
  unfold absolute? at hg
  split at hg
  · cases hg
    exact .rational _
  · next re im _ hs =>
    obtain ⟨hre, him⟩ := hf.split hs
    split at hg
    · unfold magnitudeOfReal? at hg
      dsimp only at hg
      split at hg
      · cases hg
        split
        · exact hf.neg
        · exact hf
      · cases hg
    · rcases hr : Form.root p (Form.add (Form.mul re re) (Form.mul im im)) 2 with e | r
      · simp [hr, Except.toOption] at hg
      · rw [hr] at hg
        cases hg
        exact ((hre.mul hre).add (him.mul him)).takeRoot (by decide) hr
  · cases hg

/-! ### Functions and powers -/

theorem Made.takePower (hf : f.Made p S) (hg : g.Made p S) {r : Form}
    (hr : Form.power p f g = .ok r) : r.Made p S := by
  have hkept := hr
  unfold Form.power at hr
  split at hr
  · cases hr
    exact .power hf hg fun _ => hkept
  · next q _ =>
    split at hr
    · split at hr
      · cases hr
        exact .rational 0
      · cases hr
    · next hzero =>
      have hrational : Form.power p f (ofRat q) = .ok r := by
        rw [Form.power, toRat?_ofRat]
        dsimp only
        rw [if_neg hzero, hr]
      obtain ⟨k, -, rfl⟩ | ⟨-, -, hden, raised, hraised, hroot⟩ | ⟨-, rfl, -⟩ :=
        rationalPower_inversion hr
      · rcases hk : f.pow? k with - | s
        · rw [hk] at hrational
          exact .power hf (.rational q) fun _ => hrational
        · exact hf.pow hk
      · exact (hf.pow hraised).rootOrUnreal hden hroot
      · exact .power hf (.rational q) fun _ => hrational

theorem le_of_rootIndex? (h : f.rootIndex? = some n) : n ≤ maxRootIndex := by
  unfold rootIndex? at h
  split at h
  · obtain ⟨hn, heq⟩ := Option.ite_none_right_eq_some.1 h
    cases heq
    exact hn.2
  · cases h

theorem Made.rootBy (hf : f.Made p S) (hg : g.Made p S) {r : Form} (hr : rootBy p f g = .ok r) :
    r.Made p S := by
  unfold Form.rootBy at hr
  split at hr
  · next hn => exact hf.rootOrUnreal (le_of_rootIndex? hn) hr
  · split at hr
    · next i hi => exact hf.takePower (hg.inverse hi) hr
    · cases hr

theorem Made.exactValue {b : Builtin} {rest : List Form} (hf : f.Made p S)
    (hrest : ∀ x ∈ rest, x.Made p S) (h : exactValue? p b f rest = .ok (some g)) :
    g.Made p S := by
  have hlast : (rest.getLast?.getD f).Made p S := by
    rcases hl : rest.getLast? with - | x
    · exact hf
    · exact hrest x (List.mem_of_getLast? hl)
  cases b with
  | sqrt =>
    obtain ⟨r, hr, heq⟩ := Except.map_eq_ok_iff.1 h
    cases heq
    exact hf.rootOrUnreal (by decide) hr
  | root =>
    obtain ⟨r, hr, heq⟩ := Except.map_eq_ok_iff.1 h
    cases heq
    exact hf.rootBy hlast hr
  | exp =>
    cases h
    exact hf.exponential
  | ln => exact made_logarithm? (Except.ok.inj h)
  | log10 => exact made_decimalLogarithm? (Except.ok.inj h)
  | abs => exact hf.absolute (Except.ok.inj h)
  | sin => exact made_angleFunction? (b := .sin) h
  | cos => exact made_angleFunction? (b := .cos) h
  | tan => exact made_angleFunction? (b := .tan) h
  | asin | acos | atan => exact made_inverseAngleFunction? (Except.ok.inj h)
  | conj =>
    obtain ⟨⟨re, im⟩, hs, rfl⟩ := Option.map_eq_some_iff.1 (Except.ok.inj h)
    obtain ⟨hre, him⟩ := hf.split hs
    exact hre.add (him.mul made_imaginaryUnit).neg
  | re =>
    obtain ⟨⟨re, im⟩, hs, rfl⟩ := Option.map_eq_some_iff.1 (Except.ok.inj h)
    exact (hf.split hs).1
  | im =>
    obtain ⟨⟨re, im⟩, hs, rfl⟩ := Option.map_eq_some_iff.1 (Except.ok.inj h)
    exact (hf.split hs).2

theorem made_ofFunction {code : Nat} {args : List Form} (h : ∀ x ∈ args, x.Made p S)
    (hg : ofFunction p code args = .ok g) : g.Made p S := by
  have hfunction := hg
  unfold ofFunction at hg
  split at hg
  · next x rest b hb =>
    obtain ⟨value, hvalue, rfl⟩ := Except.map_eq_ok_iff.1 hg
    cases value with
    | none =>
      have hcode : ofFunction p b.code (x :: rest) = ofFunction p code (x :: rest) := by
        simp only [ofFunction, Builtin.ofCode?_code, hb]
      exact .apply h (hcode.trans hfunction)
    | some g =>
      exact (h x List.mem_cons_self).exactValue (fun y hy => h y (List.mem_cons_of_mem _ hy)) hvalue
  · cases hg

theorem made_ofConstant (c : Constant) : (ofConstant c).Made p S := by
  cases c with
  | pi => exact made_constant (a := .pi) trivial
  | e => exact made_constant (a := .e) trivial
  | imaginaryUnit => exact made_imaginaryUnit

end Form

/-! ### Forms of expressions -/

namespace Expression

theorem foldl_made {op : Form → Form → Form}
    (hop : ∀ f g, f.Made p S → g.Made p S → (op f g).Made p S) {fs : List Form}
    (hfs : ∀ f ∈ fs, f.Made p S) {start : Form} (hstart : start.Made p S) :
    (fs.foldl op start).Made p S := by
  induction fs generalizing start with
  | nil => exact hstart
  | cons f fs ih =>
    exact ih (fun g hg => hfs g (List.mem_cons_of_mem _ hg))
      (hop start f hstart (hfs f List.mem_cons_self))

mutual

/-- The form of an expression is made of the symbols of the expression. -/
theorem form_made : ∀ {e : Expression} {f : Form}, e.IdentifiersIn S → e.form p = .ok f →
    f.Made p S
  | integer _, f, _, h | fraction _, f, _, h => by
    rw [form] at h
    cases h
    exact .rational _
  | float _, f, _, h => by
    rw [form, Form.ofFloat] at h
    split at h
    · cases h
      exact .rational _
    · cases h
  | symbol id, f, hS, h => by
    rw [form] at h
    cases h
    exact .symbol (identifiersIn_symbol.1 hS)
  | constant c, f, _, h => by
    rw [form] at h
    cases h
    exact Form.made_ofConstant c
  | undefined, f, _, h | call _ _, f, _, h | unreal, f, _, h | matrix _ _ _, f, _, h => by
    rw [form] at h
    cases h
  | sum args, f, hS, h => by
    rw [form] at h
    obtain ⟨fs, hfs, rfl⟩ := Except.map_eq_ok_iff.1 h
    exact foldl_made (fun _ _ => .add) (forms_made (identifiersIn_sum.1 hS) hfs) (.rational 0)
  | product args, f, hS, h => by
    rw [form] at h
    obtain ⟨fs, hfs, rfl⟩ := Except.map_eq_ok_iff.1 h
    exact foldl_made (fun _ _ => .mul) (forms_made (identifiersIn_product.1 hS) hfs) (.rational 1)
  | opposite a, f, hS, h => by
    rw [form] at h
    obtain ⟨g, hg, rfl⟩ := Except.map_eq_ok_iff.1 h
    exact (form_made (identifiersIn_opposite.1 hS) hg).neg
  | quotient a b, f, hS, h => by
    obtain ⟨ha, hb⟩ := identifiersIn_quotient.1 hS
    rw [form] at h
    obtain ⟨n, hn, h⟩ := Except.bind_eq_ok_iff.1 h
    obtain ⟨d, hd, h⟩ := Except.bind_eq_ok_iff.1 h
    split at h
    · next q hq =>
      cases h
      exact (form_made ha hn).divide (form_made hb hd) hq
    · cases h
  | power a b, f, hS, h => by
    obtain ⟨ha, hb⟩ := identifiersIn_power.1 hS
    rw [form] at h
    obtain ⟨k, hk, h⟩ := Except.bind_eq_ok_iff.1 h
    have hk := form_made hb hk
    split at h
    · cases h
      exact hk.exponential
    · obtain ⟨g, hg, h⟩ := Except.bind_eq_ok_iff.1 h
      exact (form_made ha hg).takePower hk h
  | apply code args, f, hS, h => by
    rw [form] at h
    obtain ⟨fs, hfs, h⟩ := Except.bind_eq_ok_iff.1 h
    exact Form.made_ofFunction (forms_made (identifiersIn_apply.1 hS) hfs) h

theorem forms_made : ∀ {es : List Expression} {fs : List Form},
    (∀ e ∈ es, e.IdentifiersIn S) → forms p es = .ok fs → ∀ f ∈ fs, f.Made p S
  | [], fs, _, h => by
    rw [forms] at h
    cases h
    exact List.forall_mem_nil _
  | e :: es, fs, hS, h => by
    obtain ⟨he, hes⟩ := List.forall_mem_cons.1 hS
    rw [forms] at h
    obtain ⟨f, hf, h⟩ := Except.bind_eq_ok_iff.1 h
    obtain ⟨gs, hgs, h⟩ := Except.bind_eq_ok_iff.1 h
    cases h
    exact List.forall_mem_cons.2 ⟨form_made he hf, forms_made hes hgs⟩

end

end Expression

end Resolvent

import Resolvent.Proofs.Expression.Tokens
import Resolvent.Proofs.Form.RootBranches
import Resolvent.Proofs.Form.RoundTrip

/-!
# Expressions, read twice

An expression without symbols has a value in two ways: that of its canonical form, whose atoms have
principal values, and that of evaluation, which takes each power and root by itself and picks a
branch from the format, the signs and the exponent.  `Expression.evaluated?` is evaluation in exact
arithmetic, with none where there is no number.

The readings agree node by node.  Arithmetic agrees wherever the valuation admits what it
normalises, that is, as long as no radicand or denominator is zero and the exponents fit.  A root
agrees exactly if its form is on the branch that evaluation takes (`Form.evaluatedRoot_eq_iff`): it
may be no principal root of a negative number under the real format, and no multiple of the root of
the opposite by the imaginary unit unless that is the principal root.  A power is the root of a
whole power of its base, which has the principal value if the angle of the power is as many whole
turns away as the index divides (`zpow_cpow_inv_eq_iff`).

`Expression.OnBranches` collects these conditions, and under them the two readings of a stored
expression agree (`Build.evaluated?_canonical`).  Without them they do not:
`Build.exists_evaluated?_canonical_ne`.
-/

namespace Resolvent

open scoped Real ComplexOrder

/-! ### Expressions -/

/-- The valuation admits what the product of a form and the members of a list meets. -/
def Valuation.AdmitsProduct {K : Type*} [Field K] (v : Valuation K) : Form → List Form → Prop
  | _, [] => True
  | f, g :: gs => v.AdmitsMul f g ∧ v.AdmitsProduct (f.mul g) gs

theorem Form.value_foldl_mul {K : Type*} [Field K] [CharZero K] {v : Valuation K} {f : Form}
    {gs : List Form} (h : v.AdmitsProduct f gs) :
    (gs.foldl Form.mul f).value v = f.value v * (gs.map (Form.value v)).prod := by
  induction gs generalizing f with
  | nil => rw [List.foldl_nil, List.map_nil, List.prod_nil, mul_one]
  | cons g gs ih =>
    rw [List.foldl_cons, ih h.2, value_mul h.1, List.map_cons, List.prod_cons, mul_assoc]

namespace Expression

/-- The number that evaluation gives a root; other functions are not considered. -/
noncomputable def evaluatedFunction? (format : ComplexFormat) (code : Nat) (zs : List ℂ) :
    Option ℂ :=
  match Builtin.ofCode? code, zs with
  | some .sqrt, z :: _ => evaluatedRoot format z 2
  | some .root, z :: w :: _ => evaluatedRootBy format z w
  | _, _ => none

open scoped Classical in
mutual

/-- The number that evaluation gives an expression without symbols in exact arithmetic, or none
where it has no value. -/
noncomputable def evaluated? (format : ComplexFormat) : Expression → Option ℂ
  | integer n => some n
  | fraction q => some q
  | constant .pi => some π
  | constant .e => some (Real.exp 1 : ℝ)
  | constant .imaginaryUnit => some Complex.I
  | sum args => (evaluatedAll? format args).map List.sum
  | product args => (evaluatedAll? format args).map List.prod
  | power base exponent =>
    (evaluated? format base).bind fun z =>
      (evaluated? format exponent).bind fun w => evaluatedPower format z w
  | opposite arg => (evaluated? format arg).map fun z => -z
  | quotient numerator denominator =>
    (evaluated? format numerator).bind fun z =>
      (evaluated? format denominator).bind fun w => if w = 0 then none else some (z / w)
  | apply code args => (evaluatedAll? format args).bind (evaluatedFunction? format code)
  | float _ | symbol _ | undefined | unreal | call _ _ | matrix _ _ _ => none

/-- The numbers that evaluation gives the members of a list, if all have one. -/
noncomputable def evaluatedAll? (format : ComplexFormat) : List Expression → Option (List ℂ)
  | [] => some []
  | e :: es => (evaluated? format e).bind fun z => (evaluatedAll? format es).map (z :: ·)

end

/-- An expression made of integers, fractions and the imaginary unit by arithmetic, powers and
roots.  What its form normalises is admitted, and its roots and powers are on the branches that
evaluation takes. -/
inductive OnBranches (v : Valuation ℂ) (p : Preferences) : Expression → Prop
  /-- Whole numbers. -/
  | integer (n : Int) : OnBranches v p (integer n)
  /-- Fractions. -/
  | fraction (q : Rat) : OnBranches v p (fraction q)
  /-- The imaginary unit. -/
  | imaginaryUnit : OnBranches v p (constant .imaginaryUnit)
  /-- Sums. -/
  | sum {es : List Expression} (hlength : 2 ≤ es.length) (hes : ∀ e ∈ es, OnBranches v p e) :
      OnBranches v p (sum es)
  /-- Products. -/
  | product {es : List Expression} (hlength : 2 ≤ es.length) (hes : ∀ e ∈ es, OnBranches v p e)
      (h : ∀ fs, forms p es = .ok fs → v.AdmitsProduct Form.one fs) : OnBranches v p (product es)
  /-- Opposites. -/
  | opposite {a : Expression} (ha : OnBranches v p a) : OnBranches v p (opposite a)
  /-- Quotients. -/
  | quotient {a b : Expression} (ha : OnBranches v p a) (hb : OnBranches v p b)
      (h : ∀ f g, a.form p = .ok f → b.form p = .ok g → v.AdmitsDivide f g) :
      OnBranches v p (quotient a b)
  /-- Powers. -/
  | power {a b : Expression} (ha : OnBranches v p a) (hb : OnBranches v p b)
      (h : ∀ f g, a.form p = .ok f → b.form p = .ok g → Form.PowerAgrees v p f g) :
      OnBranches v p (power a b)
  /-- Square roots. -/
  | sqrt {a : Expression} (ha : OnBranches v p a)
      (h : ∀ f r, a.form p = .ok f → Form.root p f 2 = .ok r → Form.RootAgrees v p f r 2) :
      OnBranches v p (apply Builtin.sqrt.code [a])
  /-- Roots. -/
  | root {a b : Expression} (ha : OnBranches v p a) (hb : OnBranches v p b)
      (h : ∀ f g, a.form p = .ok f → b.form p = .ok g → Form.RootByAgrees v p f g) :
      OnBranches v p (apply Builtin.root.code [a, b])

variable {p : Preferences} {e a b : Expression} {f r : Form}

theorem constructible_of_form (h : e.form p = .ok f) : f.Constructible :=
  (form_made (S := fun _ => True) (fun _ _ => trivial) h).constructible

theorem exists_root_of_form_sqrt (h : (apply Builtin.sqrt.code [a]).form p = .ok r) :
    ∃ f, a.form p = .ok f ∧ Form.root p f 2 = .ok r := by
  rw [form] at h
  obtain ⟨fs, hfs, h⟩ := Except.bind_eq_ok_iff.1 h
  rw [forms, forms] at hfs
  obtain ⟨f, hf, hfs⟩ := Except.bind_eq_ok_iff.1 hfs
  cases hfs
  obtain ⟨s, hs, rfl⟩ := Except.map_eq_ok_iff.1 h
  obtain ⟨t, ht, rfl⟩ := Except.map_eq_ok_iff.1 hs
  exact ⟨f, hf, Form.rootOrUnreal_eq_ok_iff.1 ht⟩

theorem exists_rootBy_of_form_root (h : (apply Builtin.root.code [a, b]).form p = .ok r) :
    ∃ f g, a.form p = .ok f ∧ b.form p = .ok g ∧ Form.rootBy p f g = .ok r := by
  rw [form] at h
  obtain ⟨fs, hfs, h⟩ := Except.bind_eq_ok_iff.1 h
  rw [forms, forms, forms] at hfs
  obtain ⟨f, hf, hfs⟩ := Except.bind_eq_ok_iff.1 hfs
  obtain ⟨gs, hgs, hfs⟩ := Except.bind_eq_ok_iff.1 hfs
  obtain ⟨g, hg, hgs⟩ := Except.bind_eq_ok_iff.1 hgs
  cases hgs
  cases hfs
  obtain ⟨s, hs, rfl⟩ := Except.map_eq_ok_iff.1 h
  obtain ⟨t, ht, rfl⟩ := Except.map_eq_ok_iff.1 hs
  exact ⟨f, g, hf, hg, ht⟩

section Evaluated

variable (x : Nat → ℂ) (functions : Builtin → List ℂ → ℂ)

theorem evaluatedAll?_eq {format : ComplexFormat} {es : List Expression} {fs : List Form}
    (h : ∀ e ∈ es, ∀ f, e.form p = .ok f →
      e.evaluated? format = some (f.value (Valuation.principal x functions)))
    (hfs : forms p es = .ok fs) :
    evaluatedAll? format es = some (fs.map (Form.value (Valuation.principal x functions))) := by
  induction es generalizing fs with
  | nil =>
    rw [forms] at hfs
    cases hfs
    rw [evaluatedAll?]
    rfl
  | cons e es ih =>
    obtain ⟨he, hes⟩ := List.forall_mem_cons.1 h
    rw [forms] at hfs
    obtain ⟨f, hf, hfs⟩ := Except.bind_eq_ok_iff.1 hfs
    obtain ⟨gs, hgs, hfs⟩ := Except.bind_eq_ok_iff.1 hfs
    cases hfs
    rw [evaluatedAll?, he f hf, ih hes hgs]
    rfl

/-- The form of an expression whose roots and powers are on the branches that evaluation takes has
the value that evaluation gives the expression. -/
theorem OnBranches.evaluated?_eq (h : e.OnBranches (Valuation.principal x functions) p)
    (hf : e.form p = .ok f) :
    e.evaluated? p.complexFormat = some (f.value (Valuation.principal x functions)) := by
  induction h generalizing f with
  | integer n =>
    rw [form] at hf
    cases hf
    rw [evaluated?, Form.value_ofRat, Rat.cast_intCast]
  | fraction q =>
    rw [form] at hf
    cases hf
    rw [evaluated?, Form.value_ofRat]
  | imaginaryUnit =>
    rw [form] at hf
    cases hf
    rw [evaluated?, Form.ofConstant, Form.value_imaginaryUnit, Form.principal_imaginaryUnit_eq_I]
  | sum _ _ ih =>
    rw [form] at hf
    obtain ⟨fs, hfs, rfl⟩ := Except.map_eq_ok_iff.1 hf
    rw [evaluated?, evaluatedAll?_eq x functions (fun e he f hf => ih e he hf) hfs,
      Option.map_some, Form.value_foldl_add, Form.value_zero, zero_add]
  | product _ _ hadmits ih =>
    rw [form] at hf
    obtain ⟨fs, hfs, rfl⟩ := Except.map_eq_ok_iff.1 hf
    rw [evaluated?, evaluatedAll?_eq x functions (fun e he f hf => ih e he hf) hfs,
      Option.map_some, Form.value_foldl_mul (hadmits fs hfs), Form.value_one, one_mul]
  | opposite _ ih =>
    rw [form] at hf
    obtain ⟨g, hg, rfl⟩ := Except.map_eq_ok_iff.1 hf
    rw [evaluated?, ih hg, Option.map_some, Form.value_neg]
  | quotient _ _ hadmits iha ihb =>
    rw [form] at hf
    obtain ⟨g, hg, hf⟩ := Except.bind_eq_ok_iff.1 hf
    obtain ⟨k, hk, hf⟩ := Except.bind_eq_ok_iff.1 hf
    split at hf
    · next q hq =>
      cases hf
      obtain ⟨hmul, hne⟩ := Form.value_divide?_mul (constructible_of_form hk).noZeros
        (hadmits g k hg hk) hq
      rw [evaluated?, iha hg, ihb hk, Option.bind_some, Option.bind_some, if_neg hne,
        eq_div_of_mul_eq hne hmul]
    · cases hf
  | power ha _ hagrees iha ihb =>
    rw [form] at hf
    obtain ⟨k, hk, hf⟩ := Except.bind_eq_ok_iff.1 hf
    split at hf
    · next hbase => cases ha <;> cases hbase
    · obtain ⟨g, hg, hf⟩ := Except.bind_eq_ok_iff.1 hf
      rw [evaluated?, iha hg, ihb hk, Option.bind_some, Option.bind_some]
      exact Form.evaluatedPower_eq x functions (constructible_of_form hg) (constructible_of_form hk)
        (hagrees g k hg hk) hf
  | sqrt _ hagrees ih =>
    obtain ⟨g, hg, hroot⟩ := exists_root_of_form_sqrt hf
    have hvalue := (Form.evaluatedRoot_eq_iff x functions (constructible_of_form hg) le_rfl
      (by decide) hroot).2 (hagrees g f hg hroot)
    rw [evaluated?, evaluatedAll?, evaluatedAll?, ih hg]
    exact hvalue
  | root _ _ hagrees iha ihb =>
    obtain ⟨g, k, hg, hk, hroot⟩ := exists_rootBy_of_form_root hf
    rw [evaluated?, evaluatedAll?, evaluatedAll?, evaluatedAll?, iha hg, ihb hk]
    exact Form.evaluatedRootBy_eq_of_rootBy x functions (constructible_of_form hg)
      (constructible_of_form hk) (hagrees g k hg hk) hroot

end Evaluated

theorem OnBranches.written {v : Valuation ℂ} {S : Nat → Prop} (h : e.OnBranches v p) :
    e.Written S := by
  induction h with
  | integer n => exact .integer n
  | fraction q => exact .fraction q
  | imaginaryUnit => exact .constant _
  | sum hlength _ ih => exact .sum hlength ih
  | product hlength _ _ ih => exact .product hlength ih
  | opposite _ ih => exact .opposite ih
  | quotient _ _ _ iha ihb => exact .quotient iha ihb
  | power _ _ _ iha ihb => exact .power iha ihb
  | sqrt _ _ ih => exact .apply _ (List.forall_mem_singleton.2 ih)
  | root _ _ _ iha ihb =>
    exact .apply _ (List.forall_mem_cons.2 ⟨iha, List.forall_mem_singleton.2 ihb⟩)

theorem OnBranches.isTranscendental {v : Valuation ℂ} (h : e.OnBranches v p) :
    e.isTranscendental = false := by
  induction h with
  | integer | fraction | imaginaryUnit => rfl
  | sum _ _ ih | product _ _ _ ih => exact any_eq_false_iff.2 ⟨rfl, ih⟩
  | opposite _ ih | sqrt _ _ ih =>
    exact any_eq_false_iff.2 ⟨rfl, List.forall_mem_singleton.2 ih⟩
  | quotient _ _ _ iha ihb | root _ _ _ iha ihb =>
    exact any_eq_false_iff.2 ⟨rfl, List.forall_mem_cons.2 ⟨iha, List.forall_mem_singleton.2 ihb⟩⟩
  | power ha _ _ iha ihb =>
    refine any_eq_false_iff.2 ⟨?_, List.forall_mem_cons.2 ⟨iha, List.forall_mem_singleton.2 ihb⟩⟩
    cases ha <;> rfl

end Expression

/-! ### Stored expressions -/

namespace Build

variable {c : Canonizer} {A B : Arena} {h : Handle} {e : Expression} {r : Canonical}

/-- **Canonical forms and evaluation agree**: the canonical form of a stored expression has the
value that evaluation gives the expression, if the roots and powers in it are on the branches that
evaluation takes. -/
theorem evaluated?_canonical (x : Nat → ℂ) (functions : Builtin → List ℂ → ℂ) (hA : A.WellFormed)
    (hh : Denotes e h A) (he : e.OnBranches (Valuation.principal x functions) c.preferences)
    (hr : canonical c h A = (.ok r, B)) :
    e.evaluated? c.preferences.complexFormat =
      some (r.form.value (Valuation.principal x functions)) := by
  refine he.evaluated?_eq x functions ?_
  -- nothing is expanded or rewritten, as there are no symbols and no functions but roots
  obtain rfl := hh.expression_eq
  obtain ⟨t, ht⟩ : ∃ t, expand (c.context.definitions A) c.mode (A.expression h) A =
      (.ok (h, t), A) :=
    (he.written (S := fun _ => False)).expand_of_kept hA (fun _ hid => hid.elim) hh
  have hcanonical := canonical_of_plain c ht he.isTranscendental rfl
  rw [hr] at hcanonical
  obtain ⟨f, hf, hcanonical⟩ := Except.map_eq_ok_iff.1 (congrArg Prod.fst hcanonical).symm
  rw [hf, ← hcanonical]

/-- Cartesian numbers. -/
def cartesian : Canonizer where
  preferences := { complexFormat := .cartesian }
  simplifier := .saturation

/-- The nodes of `√(3 + 4 * i) * (-4) ^ (1 / 2)`. -/
def gaussianRootsArena : Arena :=
  .ofNodes [] [.integer 3, .integer 4, .constant .imaginaryUnit, .product [⟨1⟩, ⟨2⟩],
    .sum [⟨0⟩, ⟨3⟩], .apply Builtin.sqrt.code [⟨4⟩], .integer (-4), .fraction (1 / 2),
    .power ⟨6⟩ ⟨7⟩, .product [⟨5⟩, ⟨8⟩]] List.nodup_nil

/-- The expression `3 + 4 * i`. -/
def gaussianSum : Expression :=
  .sum [.integer 3, .product [.integer 4, .constant .imaginaryUnit]]

/-- The expression `√(3 + 4 * i) * (-4) ^ (1 / 2)`. -/
def gaussianRoots : Expression :=
  .product [.apply Builtin.sqrt.code [gaussianSum], .power (.integer (-4)) (.fraction (1 / 2))]

section Gaussian

variable (x : Nat → ℂ) (functions : Builtin → List ℂ → ℂ)

theorem onBranches_gaussianSum :
    gaussianSum.OnBranches (Valuation.principal x functions) cartesian.preferences := by
  refine .sum le_rfl (List.forall_mem_cons.2 ⟨.integer 3, List.forall_mem_singleton.2 ?_⟩)
  refine .product le_rfl (List.forall_mem_cons.2
    ⟨.integer 4, List.forall_mem_singleton.2 .imaginaryUnit⟩) fun fs hfs => ?_
  have hforms : Expression.forms cartesian.preferences
      [.integer 4, .constant .imaginaryUnit] = .ok [Form.ofRat 4, Form.imaginaryUnit] := by
    with_unfolding_all rfl
  obtain rfl := Except.ok.inj (hfs.symm.trans hforms)
  have hone : Form.mul Form.one (Form.ofRat 4) = Form.ofRat 4 := by decide +kernel
  refine ⟨Form.ofRat_mulWithin _ 1 _, ?_, trivial⟩
  rw [hone]
  exact Form.ofRat_mulWithin _ 4 _

/-- Products of terms with the imaginary unit are admitted. -/
theorem admitsMul_unit : (Valuation.principal x functions).AdmitsMul
    ⟨[(Monomial.one, 2), (⟨[(.imaginaryUnit, 1)]⟩, 1)]⟩ ⟨[(⟨[(.imaginaryUnit, 1)]⟩, 2)]⟩ := by
  intro s hs t ht hone _
  have hs : s = (⟨[(.imaginaryUnit, 1)]⟩, 1) := by
    rcases List.mem_cons.1 hs with rfl | hs
    · cases hone
    · exact List.mem_singleton.1 hs
  obtain rfl := List.mem_singleton.1 ht
  rw [hs]
  have hcollected : Monomial.collectFactors [(Atom.imaginaryUnit, 1), (.imaginaryUnit, 1)] =
      [(.imaginaryUnit, 2)] := by decide +kernel
  have hadmits : (Valuation.principal x functions).Admits
      [(.imaginaryUnit, 1), (.imaginaryUnit, 1)] := by
    refine ⟨List.forall_mem_cons.2 ⟨?_, List.forall_mem_singleton.2 ?_⟩,
      List.forall_mem_cons.2 ⟨trivial, List.forall_mem_singleton.2 trivial⟩, ?_⟩
    · exact Valuation.imaginaryUnit_ne_zero _
    · exact Valuation.imaginaryUnit_ne_zero _
    · rw [hcollected]
      exact List.forall_mem_singleton.2 (by rfl : Width.isInt32 2 = true)
  refine Form.normalizeWithin_of_stable hadmits ?_ _ _
  change ∀ y ∈ Monomial.collectFactors [(Atom.imaginaryUnit, 1), (.imaginaryUnit, 1)], _
  rw [hcollected]
  exact List.forall_mem_singleton.2 trivial

theorem onBranches_gaussianRoots :
    gaussianRoots.OnBranches (Valuation.principal x functions) cartesian.preferences := by
  refine .product le_rfl (List.forall_mem_cons.2 ⟨?_, List.forall_mem_singleton.2 ?_⟩)
    fun fs hfs => ?_
  · refine .sqrt (onBranches_gaussianSum x functions) fun f r hf _ hexact => ?_
    -- the square root is taken of 25, the square of the modulus
    have hform : gaussianSum.form cartesian.preferences =
        .ok ⟨[(Monomial.one, 3), (⟨[(.imaginaryUnit, 1)]⟩, 4)]⟩ := by with_unfolding_all rfl
    obtain rfl := Except.ok.inj (hf.symm.trans hform)
    obtain ⟨-, hnone⟩ := hexact.modulus (a := 3) (b := 4) rfl (by decide +kernel)
    exact absurd hnone (by decide +kernel)
  · refine .power (.integer _) (.fraction _) fun f g hf hg => ?_
    obtain rfl := Except.ok.inj (hf.symm.trans (Expression.form_integer _ _))
    rw [Expression.form] at hg
    obtain rfl := Except.ok.inj hg
    rw [Form.PowerAgrees, Form.toRat?_ofRat, Form.toRat?_ofRat]
    have hroot : Form.IsExpandedRoot (1 / 2) :=
      ⟨by decide +kernel, by decide +kernel, by decide +kernel⟩
    exact .inr (.inl ⟨hroot, by decide +kernel⟩)
  · have hforms : Expression.forms cartesian.preferences
        [.apply Builtin.sqrt.code [gaussianSum], .power (.integer (-4)) (.fraction (1 / 2))] =
          .ok [⟨[(Monomial.one, 2), (⟨[(.imaginaryUnit, 1)]⟩, 1)]⟩,
            ⟨[(⟨[(.imaginaryUnit, 1)]⟩, 2)]⟩] := by
      with_unfolding_all rfl
    obtain rfl := Except.ok.inj (hfs.symm.trans hforms)
    have hone : Form.mul Form.one ⟨[(Monomial.one, 2), (⟨[(.imaginaryUnit, 1)]⟩, 1)]⟩ =
        ⟨[(Monomial.one, 2), (⟨[(.imaginaryUnit, 1)]⟩, 1)]⟩ := by decide +kernel
    refine ⟨Form.ofRat_mulWithin _ 1 _, ?_, trivial⟩
    rw [hone]
    exact admitsMul_unit x functions

end Gaussian

/-- The square root of `3 + 4i` times that of `-4` is `-2 + 4i` in both readings. -/
theorem evaluated?_canonical_gaussianRoots : ∃ r,
    canonical cartesian ⟨9⟩ gaussianRootsArena = (.ok r, gaussianRootsArena) ∧
    gaussianRoots.evaluated? .cartesian =
      some (r.form.value (Valuation.principal (fun _ => 0) fun _ _ => 0)) ∧
    r.form.value (Valuation.principal (fun _ => 0) fun _ _ => 0) = -2 + 4 * Complex.I := by
  have hA : gaussianRootsArena.WellFormed := .ofNodes (by decide) (by decide) (by decide)
  have hbranches := onBranches_gaussianRoots (fun _ => 0) fun _ _ => 0
  have hform : gaussianRoots.form cartesian.preferences =
      .ok ⟨[(Monomial.one, -2), (⟨[(.imaginaryUnit, 1)]⟩, 4)]⟩ := by with_unfolding_all rfl
  have hdenotes : Denotes gaussianRoots ⟨9⟩ gaussianRootsArena := rfl
  obtain ⟨r, hr, hrf⟩ := exists_canonical_of_kept (c := cartesian) (S := fun _ => False) hA
    (fun _ hid => hid.elim) hdenotes hbranches.written hbranches.isTranscendental hform
  refine ⟨r, hr, evaluated?_canonical _ _ hA hdenotes hbranches hr, ?_⟩
  rw [hrf, Form.value, Form.termsValue_cons, Form.termsValue_cons, Form.termsValue_nil,
    Monomial.value_eq_one_of_isOne _ rfl, Monomial.value, Monomial.factorsValue_cons,
    Monomial.factorsValue_nil]
  dsimp only
  rw [Form.principal_imaginaryUnit_eq_I, zpow_one]
  push_cast
  ring

/-- The nodes of `(-8) ^ (2 / 3)`. -/
def twoThirdsArena : Arena :=
  .ofNodes [] [.integer (-8), .fraction (2 / 3), .power ⟨0⟩ ⟨1⟩] List.nodup_nil

/-- Under the real format the form of `(-8) ^ (2 / 3)` is 4, and evaluation has no value for it. -/
theorem exists_evaluated?_canonical_ne :
    ∃ (c : Canonizer) (h : Handle) (e : Expression) (r : Canonical),
      c.preferences.complexFormat = .real ∧ Denotes e h twoThirdsArena ∧
        canonical c h twoThirdsArena = (.ok r, twoThirdsArena) ∧
        r.form = Form.ofRat 4 ∧ e.evaluated? .real = none := by
  have hA : twoThirdsArena.WellFormed := .ofNodes (by decide) (by decide) (by decide)
  have hdenotes : Denotes (.power (.integer (-8)) (.fraction (2 / 3))) ⟨2⟩ twoThirdsArena := rfl
  have hform : (Expression.power (.integer (-8)) (.fraction (2 / 3))).form {} =
      .ok (Form.ofRat 4) := by with_unfolding_all rfl
  obtain ⟨r, hr, hrf⟩ := exists_canonical_of_kept (c := { simplifier := .saturation })
    (S := fun _ => False) hA
    (fun _ hid => hid.elim) hdenotes (.power (.integer _) (.fraction _)) rfl hform
  refine ⟨_, ⟨2⟩, _, r, rfl, hdenotes, hr, hrf, ?_⟩
  have hvalue : exactPower .real (((-8 : Int) : Rat) : ℝ) (2 / 3) = none := by
    rw [exactPower_of_neg (by norm_num) (by decide +kernel), if_pos rfl,
      if_neg (by decide +kernel)]
  rw [Expression.evaluated?, Expression.evaluated?, Expression.evaluated?, Option.bind_some,
    Option.bind_some, ← hvalue, ← evaluatedPower_ratCast (.inl (by norm_num))]
  push_cast
  rfl

end Build

end Resolvent

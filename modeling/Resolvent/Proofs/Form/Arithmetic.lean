import Resolvent.Proofs.Form.Valuation
import Resolvent.Proofs.Form.Soundness

/-!
# The arithmetic of forms

`Form.value_arithmetic` is the **soundness of form arithmetic**: sums, opposites, multiples, products,
powers, inverses and quotients of forms, and normalised products of atoms, have the values that
their names say under any valuation that admits what they normalise.

Products whose radicals have exponents below their index, and whose reciprocals have none below
zero, give rise to no others, so it is enough to look at the product itself
(`Form.normalizeWithin_of_stable`).  That the exponent left under a root has to fit a word is a
real condition: beyond it the root is lost (`Form.value_ofFactors_root_ne`).
-/

namespace Resolvent

variable {K : Type*} [Field K] (v : Valuation K)

/-! ### What an operation normalises -/

namespace Valuation

/-- The valuation admits all that normalising a product of atoms meets. -/
def AdmitsFactors (c : Rat) (factors : List (Atom × Int)) : Prop :=
  Form.NormalizeWithin v.Admits (Form.unfoldings (Monomial.depthFactors factors)) c factors

/-- The valuation admits all that a product of forms meets. -/
def AdmitsMul (f g : Form) : Prop :=
  Form.MulWithin (Form.NormalizeWithin v.Admits (Form.unfoldings (f.depth + g.depth))) f g

/-- The valuation admits all that a power of a form meets. -/
def AdmitsPow (f : Form) (k : Int) : Prop :=
  Form.PowWithin (Form.NormalizeWithin v.Admits (Form.unfoldings f.depth))
    (Form.normalize (Form.unfoldings f.depth)) f k

/-- The valuation admits all that the inverse of a form meets. -/
def AdmitsInverse (f : Form) : Prop :=
  Form.InverseWithin (Form.NormalizeWithin v.Admits (Form.unfoldings f.depth))
    (Form.normalize (Form.unfoldings f.depth)) Form.maxRationalizations f

/-- The valuation admits all that a quotient of forms meets. -/
def AdmitsDivide (f g : Form) : Prop :=
  v.AdmitsInverse g ∧ ∀ i, g.inverse? = some i → v.AdmitsMul f i

end Valuation

namespace Form

/-! ### Products that give rise to no others -/

theorem eq_one_of_mem_expanded {normalize : Rat → List (Atom × Int) → Form}
    {factors : List (Atom × Int)} (hstable : ∀ x ∈ factors, Stable x) {g : Form}
    (hg : g ∈ (shares (powWith normalize) factors).flatMap Share.expanded) : g = one := by
  rcases exists_of_mem_expanded hg with ⟨f, n, k, hx, hp⟩ | ⟨f, k, hx, hneg, hp⟩
  · rw [show k / (n : Int) = 0 from hstable _ hx, powWith_zero] at hp
    exact (Option.some.inj hp).symm
  · have hlarge : (maxExpandedPower : Int) < -k := hstable _ hx hneg
    rw [powWith_of_lt normalize f (by omega)] at hp
    cases hp

theorem mulWithin_ofRat (allows : Rat → List (Atom × Int) → Prop) (f : Form) (q : Rat) :
    MulWithin allows f (ofRat q) := by
  intro s _ t ht _ hone
  unfold ofRat at ht
  split at ht
  · cases ht
  · rw [List.mem_singleton.1 ht] at hone
    cases hone

theorem ofRat_mulWithin (allows : Rat → List (Atom × Int) → Prop) (q : Rat) (f : Form) :
    MulWithin allows (ofRat q) f := by
  intro s hs t _ hone _
  unfold ofRat at hs
  split at hs
  · cases hs
  · rw [List.mem_singleton.1 hs] at hone
    cases hone

theorem mulWithin_one (allows : Rat → List (Atom × Int) → Prop) (f : Form) :
    MulWithin allows f one := mulWithin_ofRat allows f 1

theorem mulWith_one_one (normalize : Rat → List (Atom × Int) → Form) :
    mulWith normalize one one = one := by
  simp [mulWith, one, ofRat, mulTermWith, Monomial.isOne, Monomial.one, sumAll, sumLoop, ofTerm]

theorem productWithin_ones (allows : Rat → List (Atom × Int) → Prop)
    (normalize : Rat → List (Atom × Int) → Form) {gs : List Form} (h : ∀ g ∈ gs, g = one) :
    ProductWithin allows normalize one gs ∧ gs.foldl (mulWith normalize) one = one := by
  induction gs with
  | nil => exact ⟨trivial, rfl⟩
  | cons g gs ih =>
    obtain rfl := h g List.mem_cons_self
    have ih := ih fun f hf => h f (List.mem_cons_of_mem _ hf)
    rw [ProductWithin, List.foldl_cons, mulWith_one_one]
    exact ⟨⟨mulWithin_one allows one, ih.1⟩, ih.2⟩

/-- A product of which nothing is multiplied out is all that its normalisation meets. -/
theorem normalizeWithin_of_stable {allows : List (Atom × Int) → Prop}
    {factors : List (Atom × Int)} (h : allows factors)
    (hstable : ∀ x ∈ Monomial.collectFactors factors, Stable x) (n : Nat) (c : Rat) :
    NormalizeWithin allows n c factors := by
  cases n with
  | zero => exact .inr h
  | succ n =>
    have hexpanded : ∀ g ∈ (shares (powWith (normalize n))
        (Monomial.collectFactors factors)).flatMap Share.expanded, g = one :=
      fun g hg => eq_one_of_mem_expanded hstable hg
    have hones := productWithin_ones (NormalizeWithin allows n) (normalize n) hexpanded
    refine .inr ⟨h, fun x hx => ?_, hones.1, ?_⟩
    · have hstable := hstable x hx
      obtain ⟨a, k⟩ := x
      cases a with
      | radical f m =>
        rw [FactorWithin, show k / (m : Int) = 0 from hstable]
        exact .inr (.inl rfl)
      | reciprocal f =>
        have hlarge : k < 0 → (maxExpandedPower : Int) < -k := hstable
        exact fun hneg => .inl (by have := hlarge hneg; omega)
      | _ => trivial
    · rw [hones.2]
      exact mulWithin_one _ _

/-- A form other than zero has an inverse. -/
theorem exists_inverse? {f : Form} (h : f ≠ zero) : ∃ i, f.inverse? = some i := by
  have hzero : ¬ f.isZero = true := by
    obtain ⟨terms⟩ := f
    intro hnil
    exact h (congrArg Form.mk (List.isEmpty_iff.1 hnil))
  rw [inverse?, maxRationalizations, inverseWith, if_neg hzero]
  split
  · exact ⟨_, rfl⟩
  · split
    · exact ⟨_, rfl⟩
    · split <;> exact ⟨_, rfl⟩

/-! ### Soundness -/

variable [CharZero K]

section

variable {v} {f g : Form}

theorem value_mul (h : v.AdmitsMul f g) : (mul f g).value v = f.value v * g.value v :=
  (soundOn_normalize _).value_mulWith h

theorem value_ofFactors {c : Rat} {factors : List (Atom × Int)} (h : v.AdmitsFactors c factors) :
    (ofFactors c factors).value v = c * Monomial.factorsValue v factors :=
  (soundOn_normalize _).value_eq h

theorem value_mul_inverse? {i : Form} (hf : f.NoZeros) (h : v.AdmitsInverse f)
    (hi : f.inverse? = some i) : i.value v * f.value v = 1 :=
  (soundOn_normalize _).value_inverseWith hf h hi

theorem value_divide?_mul {q : Form} (hg : g.NoZeros) (h : v.AdmitsDivide f g)
    (hq : f.divide? g = some q) : q.value v * g.value v = f.value v ∧ g.value v ≠ 0 := by
  obtain ⟨i, hi, rfl⟩ := Option.map_eq_some_iff.1 hq
  have hinverse := value_mul_inverse? hg h.1 hi
  refine ⟨?_, right_ne_zero_of_mul_eq_one hinverse⟩
  rw [value_mul (h.2 i hi), mul_assoc, hinverse, mul_one]

end

/-- **Soundness of form arithmetic**: under a valuation that admits what is normalised on the way,
operations on forms have the values that their names say, and the forms that are inverted have
values other than zero. -/
theorem value_arithmetic {f g : Form} (hf : f.NoZeros) (hg : g.NoZeros) :
    (add f g).value v = f.value v + g.value v ∧
    (neg f).value v = -f.value v ∧
    (∀ q, (scale f q).value v = q * f.value v) ∧
    (v.AdmitsMul f g → (mul f g).value v = f.value v * g.value v) ∧
    (∀ c factors, v.AdmitsFactors c factors →
      (ofFactors c factors).value v = c * Monomial.factorsValue v factors) ∧
    (∀ k p, v.AdmitsPow f k → f.pow? k = some p →
      p.value v = f.value v ^ k ∧ (k < 0 → f.value v ≠ 0)) ∧
    (∀ i, v.AdmitsInverse f → f.inverse? = some i →
      i.value v = 1 / f.value v ∧ f.value v ≠ 0) ∧
    (∀ q, v.AdmitsDivide f g → f.divide? g = some q →
      q.value v = f.value v / g.value v ∧ g.value v ≠ 0) := by
  -- the quotient makes use of this for the second form
  have hinverse : ∀ {f i : Form}, f.NoZeros → v.AdmitsInverse f → f.inverse? = some i →
      i.value v = 1 / f.value v ∧ f.value v ≠ 0 := by
    intro f i hf hadmits hi
    have hmul := (soundOn_normalize _).value_inverseWith hf hadmits hi
    exact ⟨eq_one_div_of_mul_eq_one_left hmul, right_ne_zero_of_mul_eq_one hmul⟩
  refine ⟨value_add v f g, value_neg v f, value_scale v f, (soundOn_normalize _).value_mulWith,
    fun c factors h => (soundOn_normalize _).value_eq h, fun k p hk hp => ?_,
    fun i => hinverse hf, fun q hq hp => ?_⟩
  · exact (soundOn_normalize _).value_powWith (fun _ => hf) hk hp
  · obtain ⟨i, hi, rfl⟩ := Option.map_eq_some_iff.1 hp
    obtain ⟨hvalue, hne⟩ := hinverse hg hq.1 hi
    refine ⟨?_, hne⟩
    rw [show (mul f i).value v = f.value v * i.value v from
      (soundOn_normalize _).value_mulWith (hq.2 i hi), hvalue, mul_one_div]

/-- The sum of one and the first symbol. -/
def onePlusSymbol : Form := ⟨[(⟨[]⟩, 1), (⟨[(.symbol 0, 1)]⟩, 1)]⟩

/-- The first symbol. -/
def firstSymbol : Form := ⟨[(⟨[(.symbol 0, 1)]⟩, 1)]⟩

/-- The principal values when every symbol is one. -/
noncomputable def unitValuation : Valuation ℂ := Valuation.principal (fun _ => 1) fun _ _ => 1

theorem unitValuation_symbol (n : Nat) : unitValuation (.symbol n) = 1 := by
  change Atom.principal _ _ _ = _
  rw [Atom.principal]

theorem value_onePlusSymbol : onePlusSymbol.value unitValuation = 2 := by
  simp [onePlusSymbol, value, termsValue, Monomial.value, Monomial.factorsValue,
    unitValuation_symbol]
  norm_num

theorem lawful_unitValuation {a : Atom} (h : a = .symbol 0 ∨ a = .reciprocal onePlusSymbol) :
    unitValuation.Lawful a ∧ a.NoZeros := by
  rcases h with rfl | rfl
  · refine ⟨?_, trivial⟩
    change unitValuation (.symbol 0) ≠ 0
    rw [unitValuation_symbol]
    exact one_ne_zero
  · refine ⟨Valuation.lawful_principal_reciprocal _ _ ?_, trivial⟩
    change onePlusSymbol.value unitValuation ≠ 0
    rw [value_onePlusSymbol]
    exact two_ne_zero

theorem normalizeWithin_unitValuation {factors : List (Atom × Int)}
    (hatoms : ∀ x ∈ factors, x.1 = .symbol 0 ∨ x.1 = .reciprocal onePlusSymbol)
    (hfits : ∀ x ∈ Monomial.collectFactors factors,
      Width.isInt32 x.2 = true ∧ (x.1 ≠ .symbol 0 → 0 ≤ x.2)) (n : Nat) (c : Rat) :
    NormalizeWithin unitValuation.Admits n c factors := by
  have hmem : ∀ x ∈ Monomial.collectFactors factors,
      x.1 = .symbol 0 ∨ x.1 = .reciprocal onePlusSymbol := fun x hx =>
    have ⟨k, hk⟩ := Monomial.exists_of_mem_collectFactors hx
    hatoms (x.1, k) hk
  have hadmits : unitValuation.Admits factors := by
    refine ⟨fun x hx => (lawful_unitValuation (hatoms x hx)).1,
      fun x hx => (lawful_unitValuation (hatoms x hx)).2, fun x hx => ?_⟩
    obtain ⟨a, k⟩ := x
    rcases hmem _ hx with rfl | rfl <;> exact (hfits _ hx).1
  refine normalizeWithin_of_stable hadmits (fun x hx => ?_) n c
  obtain ⟨a, k⟩ := x
  rcases hmem _ hx with rfl | rfl
  · trivial
  · exact fun hneg => absurd hneg (not_lt.2 ((hfits _ hx).2 nofun))

theorem noZeros_firstSymbol : firstSymbol.NoZeros := by
  intro t ht
  rw [List.mem_singleton.1 ht]
  exact ⟨one_ne_zero, trivial⟩

theorem noZeros_onePlusSymbol : onePlusSymbol.NoZeros := by
  intro t ht
  rcases List.mem_cons.1 ht with rfl | ht
  · exact ⟨one_ne_zero, trivial⟩
  · rw [List.mem_singleton.1 ht]
    exact ⟨one_ne_zero, trivial⟩

theorem admitsMul_firstSymbol : unitValuation.AdmitsMul firstSymbol onePlusSymbol := by
  intro s hs t ht _ hone
  obtain rfl := List.mem_singleton.1 hs
  rcases List.mem_cons.1 ht with rfl | ht
  · cases hone
  · obtain rfl := List.mem_singleton.1 ht
    exact normalizeWithin_unitValuation (by simp) (by decide +kernel) _ _

theorem admitsInverse_firstSymbol : unitValuation.AdmitsInverse firstSymbol :=
  .inr (normalizeWithin_unitValuation (by simp [Monomial.scaleExponents])
    (by decide +kernel) _ _)

theorem admitsPow_firstSymbol : unitValuation.AdmitsPow firstSymbol (-2) := by
  refine .inr ⟨admitsInverse_firstSymbol, fun i hi => .inr ?_⟩
  have hexplicit : firstSymbol.inverse? = some ⟨[(⟨[(.symbol 0, -1)]⟩, 1)]⟩ := by
    decide +kernel
  obtain rfl := Option.some.inj (hi.symm.trans hexplicit)
  exact normalizeWithin_unitValuation (by simp [Monomial.scaleExponents])
    (by decide +kernel) _ _

theorem admitsDivide_firstSymbol : unitValuation.AdmitsDivide firstSymbol onePlusSymbol := by
  have hscale : onePlusSymbol.scale onePlusSymbol.leadingCoefficient⁻¹ = onePlusSymbol := by
    decide +kernel
  refine ⟨.inr ?_, fun i hi => ?_⟩
  · change ReciprocalWithin _ onePlusSymbol
    rw [ReciprocalWithin, hscale]
    exact normalizeWithin_unitValuation (by simp) (by decide +kernel) _ _
  · have hexplicit : onePlusSymbol.inverse? =
        some ⟨[(⟨[(.reciprocal onePlusSymbol, 1)]⟩, 1)]⟩ := by decide +kernel
    obtain rfl := Option.some.inj (hi.symm.trans hexplicit)
    intro s hs t ht _ _
    obtain rfl := List.mem_singleton.1 hs
    obtain rfl := List.mem_singleton.1 ht
    exact normalizeWithin_unitValuation (by simp) (by decide +kernel) _ _

/-- The operations on the first symbol, and its quotient by the sum of one and itself. -/
theorem value_arithmetic_unitValuation :
    firstSymbol.NoZeros ∧ onePlusSymbol.NoZeros ∧
    unitValuation.AdmitsMul firstSymbol onePlusSymbol ∧
    unitValuation.AdmitsFactors 1 [(.symbol 0, 2), (.reciprocal onePlusSymbol, 1)] ∧
    unitValuation.AdmitsPow firstSymbol (-2) ∧
    unitValuation.AdmitsInverse firstSymbol ∧
    unitValuation.AdmitsDivide firstSymbol onePlusSymbol ∧
    (mul firstSymbol onePlusSymbol).value unitValuation =
      firstSymbol.value unitValuation * onePlusSymbol.value unitValuation ∧
    ∃ q, firstSymbol.divide? onePlusSymbol = some q ∧
      q.value unitValuation = firstSymbol.value unitValuation / 2 := by
  have hfactors : unitValuation.AdmitsFactors 1 [(.symbol 0, 2), (.reciprocal onePlusSymbol, 1)] :=
    normalizeWithin_unitValuation (by simp) (by decide +kernel) _ _
  have hall := value_arithmetic unitValuation noZeros_firstSymbol noZeros_onePlusSymbol
  have hquotient : firstSymbol.divide? onePlusSymbol =
      some ⟨[(⟨[(.symbol 0, 1), (.reciprocal onePlusSymbol, 1)]⟩, 1)]⟩ := by decide +kernel
  refine ⟨noZeros_firstSymbol, noZeros_onePlusSymbol, admitsMul_firstSymbol, hfactors,
    admitsPow_firstSymbol, admitsInverse_firstSymbol, admitsDivide_firstSymbol,
    hall.2.2.2.1 admitsMul_firstSymbol, _, hquotient, ?_⟩
  rw [(hall.2.2.2.2.2.2.2 _ admitsDivide_firstSymbol hquotient).1, value_onePlusSymbol]

/-! ### Exponents that leave their range -/

omit [CharZero K] in
theorem ofFactors_root_neg_one {q : Rat} (hq : q ≠ 0) {n : Nat} (hn : 2147483648 < n) {c : Rat}
    (hc : c ≠ 0) : ofFactors c [(.root q n, -1)] = ofTerm Monomial.one (c * q⁻¹) := by
  have hwhole : (-1 : Int) / n = -1 := Int.ediv_eq_neg_one_of_neg_of_le (by omega) (by omega)
  have hrest : (-1 : Int) % n = n - 1 := by rw [Int.emod_def, hwhole]; ring
  -- what is left under the root is one short of the index
  have hunfit : Width.isInt32 ((-1 : Int) % n) = false := by
    rw [hrest]
    simp only [Width.isInt32, decide_eq_false_iff_not]
    omega
  have hcollect : Monomial.collectFactors [(.root q n, -1)] = [(.root q n, -1)] := by
    simp [Monomial.collectFactors, Monomial.insertFactor]
  have hradicands : radicandsOf n [(.root q n, -1)] = [(q, -1)] := by simp [radicandsOf]
  have hwholeProduct : wholeProduct n [(q, -1)] = q⁻¹ := by
    simp [wholeProduct, wholePower, hwhole, power?_eq_zpow hq, Width.isInt32]
  have hrestProduct : restProduct n [(q, -1)] = 1 := by
    simp [restProduct, restPower, hunfit, power?_eq_zpow hq]
  have hextract : PerfectPower.extract 1 n = (1, 1) := by
    simp [PerfectPower.extract, PerfectPower.extractWith]
  have hparts : ∀ power, shares power [(.root q n, -1)] = [{}, { coefficient := q⁻¹ }] := by
    intro power
    simp [shares, share, rootIndices, insertIndex, rootShare_eq, hradicands, hwholeProduct,
      hrestProduct, hextract]
  have hnormalize : ∀ multiply power, normalizeWith multiply power c [(.root q n, -1)] =
      ofTerm Monomial.one (c * q⁻¹) := by
    intro multiply power
    have hone : one.isOne = true := by simp [isOne, one, toRat?_ofRat]
    rw [normalizeWith_eq multiply power hc, hcollect, hparts]
    simp [sharedTerm, sharedCoefficient, hone, Monomial.one, Monomial.collectFactors]
  unfold ofFactors
  cases unfoldings (Monomial.depthFactors [(.root q n, -1)]) with
  | zero => exact hnormalize _ _
  | succ n => exact hnormalize _ _

/-- The root of an index above `2 ^ 31` is lost when its exponent is -1: what is left of the
exponent under the root does not fit a word. -/
theorem value_ofFactors_root_ne {q : Rat} (hq : 0 < q) (hone : q ≠ 1) {n : Nat}
    (hn : 2147483648 < n) {c : Rat} (hc : c ≠ 0) :
    (ofFactors c [(.root q n, -1)]).value v ≠
      c * Monomial.factorsValue v [(.root q n, -1)] := by
  have hn2 : 2 ≤ n := by omega
  have hqK : (q : K) ≠ 0 := by exact_mod_cast hq.ne'
  have hcK : (c : K) ≠ 0 := by exact_mod_cast hc
  rw [ofFactors_root_neg_one hq.ne' hn hc, value_ofTerm, Monomial.value_eq_one_of_isOne v rfl,
    Monomial.factorsValue_cons, Monomial.factorsValue_nil]
  intro heq
  -- otherwise the root would be its own radicand, which is then one
  have hroot : v (.root q n) = q := by
    push_cast at heq
    simpa [hcK] using heq.symm
  have hpow : q ^ n = q := by
    have h := v.root_pow hq hn2
    rw [hroot] at h
    exact_mod_cast h
  refine hone ((pow_eq_one_iff_of_nonneg hq.le (by omega : n - 1 ≠ 0)).1 ?_)
  refine mul_right_cancel₀ hq.ne' ?_
  rw [← pow_succ, Nat.sub_add_cancel (by omega), hpow, one_mul]

end Form

end Resolvent

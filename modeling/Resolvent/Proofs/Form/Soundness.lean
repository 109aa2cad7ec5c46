import Resolvent.Proofs.Form.Factors
import Resolvent.Proofs.Form.Run
import Mathlib.Tactic.FieldSimp

/-!
# Soundness of the arithmetic of forms

Under a valuation every operation on forms computes what its name says, as long as the valuation is
lawful at the atoms that the computation meets and no exponent leaves the range of 32 bits
(`Form.value_arithmetic`).  Both conditions are about what is normalised on the way, to any depth:
`Valuation.Admits` says them of one product of atoms, and `Form.NormalizeWithin` carries them to the
products that normalising it gives rise to.

The invariant is `Form.SoundOn`: normalising a product that is allowed keeps its value.  Products,
powers and inverses of forms inherit soundness from it, and so does the next level of
normalisation.
-/

namespace Resolvent

variable {K : Type*} [Field K] (v : Valuation K)

/-- A radicand in the atom has no coefficient zero. -/
def Atom.NoZeros : Atom → Prop
  | .radical f _ => f.NoZeros
  | _ => True

/-- The valuation is lawful at the atoms of a product, and the exponents that it adds up to fit. -/
structure Valuation.Admits (factors : List (Atom × Int)) : Prop where
  /-- The atoms are lawful. -/
  lawful : ∀ x ∈ factors, v.Lawful x.1
  /-- The radicands are stored without zeros. -/
  noZeros : ∀ x ∈ factors, x.1.NoZeros
  /-- The exponents fit, once those of each atom are added up. -/
  fits : ∀ x ∈ Monomial.collectFactors factors, Form.Fits x

theorem Valuation.Admits.collected {v : Valuation K} {factors : List (Atom × Int)}
    (h : v.Admits factors) :
    ∀ x ∈ Monomial.collectFactors factors, v.Lawful x.1 ∧ x.1.NoZeros := fun x hx =>
  have ⟨k, hk⟩ := Monomial.exists_of_mem_collectFactors hx
  ⟨h.lawful (x.1, k) hk, h.noZeros (x.1, k) hk⟩

namespace Form

/-- Products that are allowed are made of lawful atoms, and normalising them keeps their value. -/
structure SoundOn (allows : Rat → List (Atom × Int) → Prop)
    (normalize : Rat → List (Atom × Int) → Form) : Prop where
  /-- No coefficient of a normalised product is zero. -/
  noZeros : ∀ c factors, (normalize c factors).NoZeros
  /-- The atoms of an allowed product are lawful. -/
  lawful : ∀ {c factors}, allows c factors → c ≠ 0 → ∀ x ∈ factors, v.Lawful x.1
  /-- A normalised product has the value of the product. -/
  value_eq : ∀ {c factors}, allows c factors →
    (normalize c factors).value v = c * Monomial.factorsValue v factors

variable [CharZero K]

/-! ### Products of terms -/

section Terms

variable {v : Atom → K} {normalize : Rat → List (Atom × Int) → Form}

/-- The product of two terms has their value if normalising it keeps the value. -/
theorem value_mulTermWith {s t : Monomial × Rat}
    (hst : s.1.isOne = false → t.1.isOne = false →
      (normalize (s.2 * t.2) (s.1.factors ++ t.1.factors)).value v =
        ((s.2 * t.2 : Rat) : K) * Monomial.factorsValue v (s.1.factors ++ t.1.factors)) :
    (mulTermWith normalize s t).value v = (s.2 * s.1.value v) * (t.2 * t.1.value v) := by
  unfold mulTermWith
  dsimp only
  split
  · next ht =>
    rw [value_ofTerm, Monomial.value_eq_one_of_isOne _ ht]
    push_cast
    ring
  · next ht =>
    split
    · next hs =>
      rw [value_ofTerm, Monomial.value_eq_one_of_isOne _ hs]
      push_cast
      ring
    · next hs =>
      rw [hst (Bool.eq_false_iff.2 hs) (Bool.eq_false_iff.2 ht), Monomial.factorsValue_append,
        Monomial.value, Monomial.value]
      push_cast
      ring

/-- The product of two forms has their value if the products of their terms have. -/
theorem value_mulWith_of_terms {f g : Form}
    (h : ∀ s ∈ f.terms, ∀ t ∈ g.terms, (mulTermWith normalize s t).value v =
      (s.2 * s.1.value v) * (t.2 * t.1.value v)) :
    (mulWith normalize f g).value v = f.value v * g.value v := by
  obtain ⟨xs⟩ := f
  obtain ⟨ys⟩ := g
  -- one row of the product, by induction on the second factor
  have hrow : ∀ s ∈ xs, ((ys.map (mulTermWith normalize s)).map (value v)).sum =
      (s.2 * s.1.value v) * termsValue v ys := by
    intro s hs
    have hterms := h s hs
    clear h
    induction ys with
    | nil => simp [termsValue_nil]
    | cons t ys ih =>
      rw [List.map_cons, List.map_cons, List.sum_cons, hterms t List.mem_cons_self,
        ih fun u hu => hterms u (List.mem_cons_of_mem _ hu), termsValue_cons]
      ring
  clear h
  rw [mulWith, value_sumAll, value, value]
  dsimp only at hrow ⊢
  induction xs with
  | nil => simp [termsValue_nil]
  | cons s xs ih =>
    rw [List.flatMap_cons, List.map_append, List.sum_append, hrow s List.mem_cons_self,
      ih fun r hr => hrow r (List.mem_cons_of_mem _ hr), termsValue_cons]
    ring

end Terms

variable {v}

namespace SoundOn

variable {allows : Rat → List (Atom × Int) → Prop} {normalize : Rat → List (Atom × Int) → Form}
  (h : SoundOn v allows normalize)

include h

/-! ### Products and powers -/

theorem value_mulWith {f g : Form} (hfg : MulWithin allows f g) :
    (mulWith normalize f g).value v = f.value v * g.value v :=
  value_mulWith_of_terms fun s hs t ht =>
    value_mulTermWith fun hs1 ht1 => h.value_eq (hfg s hs t ht hs1 ht1)

theorem mulSound : MulSound allows normalize (fun _ => True) (value v) :=
  fun _ _ _ _ hfg => ⟨trivial, h.value_mulWith hfg⟩

theorem value_foldl_mulWith {gs : List Form} {f : Form} (hgs : ProductWithin allows normalize f gs) :
    (gs.foldl (mulWith normalize) f).value v = f.value v * (gs.map (value v)).prod :=
  (h.mulSound.foldl trivial (fun _ _ => trivial) hgs).2

theorem value_powLoop {result base : Form} {n : Nat}
    (hn : PowLoopWithin allows normalize result base n) :
    (powLoop (mulWith normalize) result base n).value v = result.value v * base.value v ^ n :=
  (h.mulSound.powLoop trivial trivial hn).2

theorem value_powNatWith {f : Form} {n : Nat} (hn : PowNatWithin allows normalize f n) :
    (powNatWith normalize f n).value v = f.value v ^ n := by
  unfold powNatWith
  unfold PowNatWithin at hn
  split
  · next hzero => rw [hzero, pow_zero, value_one]
  · next hpos =>
    have hn := hn.resolve_left hpos
    rcases hsingle : f.singleTerm? with - | ⟨m, q⟩
    · simp only [hsingle] at hn ⊢
      rw [h.value_powLoop hn, value_one, one_mul]
    · simp only [hsingle] at hn ⊢
      rw [h.value_eq hn, Monomial.factorsValue_scaleExponents, value_singleTerm _ hsingle,
        mul_pow, zpow_natCast]
      congr 1
      exact_mod_cast rfl

/-! ### Inverses -/

theorem value_reciprocalOf {f : Form} (hf : f.NoZeros) (hzero : f.isZero = false)
    (hrec : ReciprocalWithin allows f) :
    (reciprocalOf normalize f).value v * f.value v = 1 := by
  have hlead : f.leadingCoefficient ≠ 0 := by
    obtain ⟨terms⟩ := f
    cases terms with
    | nil => simp [isZero] at hzero
    | cons t terms => exact (hf t List.mem_cons_self).1
  have hlaw := h.lawful hrec (inv_ne_zero hlead) _ List.mem_cons_self
  have hone : v (.reciprocal (f.scale f.leadingCoefficient⁻¹)) *
      ((f.leadingCoefficient⁻¹ : Rat) * f.value v) = 1 := by
    rwa [Valuation.Lawful, value_scale] at hlaw
  rw [reciprocalOf, h.value_eq hrec, Monomial.factorsValue_cons, Monomial.factorsValue_nil,
    zpow_one, mul_one]
  linear_combination hone

theorem value_single_inverse {f : Form} {m : Monomial} {q : Rat} (hf : f.NoZeros)
    (hsingle : f.singleTerm? = some (m, q)) (hinv : allows q⁻¹ (m.scaleExponents (-1))) :
    (normalize q⁻¹ (m.scaleExponents (-1))).value v * f.value v = 1 := by
  have hq : q ≠ 0 := (hf (m, q) (by simp [terms_of_singleTerm? hsingle])).1
  -- all atoms of the inverse are those of the term
  have hm : m.value v ≠ 0 := by
    refine Monomial.factorsValue_ne_zero fun x hx => ?_
    exact (h.lawful hinv (inv_ne_zero hq) (x.1, x.2 * -1) (List.mem_map.2 ⟨x, hx, rfl⟩)).ne_zero
  have hq' : (q : K) ≠ 0 := by exact_mod_cast hq
  rw [h.value_eq hinv, Monomial.factorsValue_scaleExponents, value_singleTerm _ hsingle,
    zpow_neg_one]
  push_cast
  field_simp

theorem value_inverseWith {budget : Nat} {f g : Form} (hf : f.NoZeros)
    (hwithin : InverseWithin allows normalize budget f)
    (hg : inverseWith normalize budget f = some g) : g.value v * f.value v = 1 := by
  induction budget generalizing f g with
  | zero =>
    rw [inverseWith] at hg
    split at hg
    · cases hg
    · next hzero =>
      have hwithin := hwithin.resolve_left hzero
      split at hg
      · next m q hsingle =>
        simp only [hsingle] at hwithin
        cases hg
        exact h.value_single_inverse hf hsingle hwithin
      · next hnone =>
        simp only [hnone] at hwithin
        cases hg
        exact h.value_reciprocalOf hf (Bool.eq_false_iff.2 hzero) hwithin
  | succ budget ih =>
    rw [inverseWith] at hg
    split at hg
    · cases hg
    · next hzero =>
      have hwithin := hwithin.resolve_left hzero
      split at hg
      · next m q hsingle =>
        simp only [hsingle] at hwithin
        cases hg
        exact h.value_single_inverse hf hsingle hwithin
      · next hnone =>
        simp only [hnone] at hwithin
        split at hg
        · next hconj =>
          simp only [hconj] at hwithin
          cases hg
          exact h.value_reciprocalOf hf (Bool.eq_false_iff.2 hzero) hwithin
        · next c hconj =>
          simp only [hconj] at hwithin
          obtain ⟨hmul, hrest, hlast⟩ := hwithin
          split at hg
          · next inverse hinverse =>
            simp only [hinverse] at hlast
            cases hg
            -- the conjugate times the inverse of the product with it
            have hden := ih (noZeros_mulWith h.noZeros f c) hrest hinverse
            rw [h.value_mulWith hmul] at hden
            rw [h.value_mulWith hlast]
            linear_combination hden
          · next hinverse =>
            simp only [hinverse] at hlast
            cases hg
            exact h.value_reciprocalOf hf (Bool.eq_false_iff.2 hzero) hlast

theorem value_powWith {f g : Form} {k : Int} (hf : k < 0 → f.NoZeros)
    (hk : PowWithin allows normalize f k) (hg : powWith normalize f k = some g) :
    g.value v = f.value v ^ k ∧ (k < 0 → f.value v ≠ 0) := by
  unfold powWith at hg
  unfold PowWithin at hk
  split at hg
  · cases hg
  · next hsmall =>
    have hk := hk.resolve_left hsmall
    split at hg
    · next hneg =>
      rw [if_pos hneg] at hk
      obtain ⟨i, hi, rfl⟩ := Option.map_eq_some_iff.1 hg
      have hinv := h.value_inverseWith (hf hneg) hk.1 hi
      have hi' : i.value v = (f.value v)⁻¹ := eq_inv_of_mul_eq_one_left hinv
      refine ⟨?_, fun _ => right_ne_zero_of_mul_eq_one hinv⟩
      rw [h.value_powNatWith (hk.2 i hi), hi', inv_pow, ← zpow_natCast, ← zpow_neg]
      congr 1
      omega
    · next hpos =>
      rw [if_neg hpos] at hk
      cases hg
      refine ⟨?_, fun hneg => absurd hneg hpos⟩
      rw [h.value_powNatWith hk, ← zpow_natCast]
      congr 1
      omega

theorem powersSound {x : Atom × Int} (hzeros : x.1.NoZeros)
    (hx : FactorWithin allows normalize x) : PowersSound v (powWith normalize) x := by
  obtain ⟨a, k⟩ := x
  cases a with
  | radical f n => exact fun p hp => (h.value_powWith (fun _ => hzeros) hx hp).1
  | reciprocal f =>
    -- the exponent is turned round, so nothing is inverted
    exact fun hneg p hp => (h.value_powWith (fun hpos => by omega) (hx hneg) hp).1
  | _ => trivial

end SoundOn

/-! ### Normalisation -/

theorem flatMap_expanded_of_no_power (factors : List (Atom × Int)) :
    (shares (fun _ _ => none) factors).flatMap Share.expanded = [] := by
  rw [List.flatMap_eq_nil_iff]
  intro s hs
  rcases List.mem_append.1 hs with hs | hs
  · obtain ⟨⟨a, k⟩, -, rfl⟩ := List.mem_map.1 hs
    cases a with
    | reciprocal f =>
      rw [share, reciprocalShare]
      split <;> rfl
    | _ => rfl
  · obtain ⟨n, -, rfl⟩ := List.mem_map.1 hs
    rfl

/-- Normalising a product keeps its value, as long as the valuation admits what it meets. -/
theorem soundOn_normalize (n : Nat) : SoundOn v (NormalizeWithin v.Admits n) (normalize n) := by
  induction n with
  | zero =>
    refine ⟨noZeros_normalize 0, fun h hc => (h.allows hc).lawful, fun {c factors} h => ?_⟩
    rcases eq_or_ne c 0 with rfl | hc
    · rw [normalize_zero_coefficient, value_zero, Rat.cast_zero, zero_mul]
    · have hadmits := h.allows hc
      -- no power is allowed at this level, so nothing is multiplied out
      have hnone : ∀ x : Atom × Int, PowersSound v (fun _ _ => none) x := by
        intro x
        obtain ⟨a, k⟩ := x
        cases a <;> simp [PowersSound]
      have hvalue := value_sharedTerm v (fun _ _ => none) (fun x _ => hnone x)
        (fun x hx => (hadmits.collected x hx).1) hadmits.fits c
      rw [flatMap_expanded_of_no_power, List.map_nil, List.prod_nil, mul_one,
        Monomial.factorsValue_collectFactors fun x hx => (hadmits.lawful x hx).ne_zero] at hvalue
      rw [normalize, normalizeWith_eq _ _ hc]
      dsimp only
      split <;> exact hvalue
  | succ n ih =>
    refine ⟨noZeros_normalize _, fun h hc => (h.allows hc).lawful, fun {c factors} h => ?_⟩
    rcases eq_or_ne c 0 with rfl | hc
    · rw [normalize_zero_coefficient, value_zero, Rat.cast_zero, zero_mul]
    · obtain ⟨hadmits, hpowers, hexpanded, hlast⟩ := h.resolve_left hc
      -- the powers that are multiplied out are those of the level below
      have hsound : ∀ x ∈ Monomial.collectFactors factors,
          PowersSound v (powWith (normalize n)) x :=
        fun x hx => ih.powersSound (hadmits.collected x hx).2 (hpowers x hx)
      have hvalue := value_sharedTerm v _ hsound (fun x hx => (hadmits.collected x hx).1)
        hadmits.fits c
      rw [Monomial.factorsValue_collectFactors fun x hx => (hadmits.lawful x hx).ne_zero]
        at hvalue
      have hproduct := ih.value_foldl_mulWith hexpanded
      rw [value_one, one_mul] at hproduct
      rw [← hproduct] at hvalue
      rw [normalize, normalizeWith_eq _ _ hc]
      dsimp only
      split
      · next hone => rwa [value_eq_one_of_isOne v hone, mul_one] at hvalue
      · rwa [ih.value_mulWith hlast]

end Form

end Resolvent

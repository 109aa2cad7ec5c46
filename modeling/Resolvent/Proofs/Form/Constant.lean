import Resolvent.Proofs.Form.Value
import Resolvent.Proofs.Linear.Transfer
import Resolvent.Solve.Linear

/-!
# Constant forms

Arithmetic on constants is the arithmetic of rational numbers, so `Form.ofRat` is a map of scalars
(`Form.scalarMap_ofRat`) and elimination of constants is elimination of rational numbers.
-/

namespace Resolvent.Form

theorem ofRat_ne_zero {q : Rat} (hq : q ≠ 0) : ofRat q ≠ zero := by
  unfold ofRat
  rw [if_neg hq]
  exact nofun

theorem ofRat_injective : Function.Injective ofRat := by
  intro a b h
  have hrat := congrArg toRat? h
  rw [toRat?_ofRat, toRat?_ofRat] at hrat
  exact Option.some.inj hrat

theorem eq_of_mem_terms_ofRat {q : Rat} {t : Monomial × Rat} (h : t ∈ (ofRat q).terms) :
    t = (Monomial.one, q) := by
  unfold ofRat at h
  split at h
  · cases h
  · exact List.mem_singleton.1 h

theorem isZero_ofRat (a : Rat) : (ofRat a).isZero = (a == 0) := by
  unfold ofRat
  split
  · next h => simp [h, isZero, zero]
  · next h => simp [h, isZero]

theorem add_ofRat (a b : Rat) : add (ofRat a) (ofRat b) = ofRat (a + b) := by
  by_cases ha : a = 0
  · rw [ha, ofRat_zero, Form.zero_add, Rat.zero_add]
  · by_cases hb : b = 0
    · rw [hb, ofRat_zero, Form.add_zero, Rat.add_zero]
    · unfold ofRat
      rw [if_neg ha, if_neg hb]
      simp only [add, mergeTerms, mergeTerm, Monomial.order_self]
      split <;> rfl

theorem neg_ofRat (a : Rat) : neg (ofRat a) = ofRat (-a) := by
  unfold ofRat
  split
  · next h => rw [if_pos (by rw [h, neg_zero])]; rfl
  · next h => rw [if_neg (neg_ne_zero.2 h)]; rfl

theorem mulWith_ofRat (normalize : Rat → List (Atom × Int) → Form) (a b : Rat) :
    mulWith normalize (ofRat a) (ofRat b) = ofRat (a * b) := by
  unfold ofRat
  by_cases ha : a = 0
  · simp [ha, mulWith, zero, sumAll, sumLoop]
  · by_cases hb : b = 0
    · simp [ha, hb, mulWith, zero, sumAll, sumLoop]
    · simp [ha, hb, mulWith, sumAll, sumLoop, mulTermWith, Monomial.isOne, Monomial.one, ofTerm]

theorem mul_ofRat (a b : Rat) : mul (ofRat a) (ofRat b) = ofRat (a * b) := mulWith_ofRat _ a b

theorem sub_ofRat (a b : Rat) : sub (ofRat a) (ofRat b) = ofRat (a - b) := by
  rw [sub, neg_ofRat, add_ofRat, sub_eq_add_neg]

theorem scale_ofRat (a k : Rat) : (ofRat a).scale k = ofRat (a * k) := by
  rw [scale]
  by_cases hk : k = 0
  · rw [if_pos hk, hk, mul_zero, ofRat_zero]
  · rw [if_neg hk]
    unfold ofRat
    by_cases ha : a = 0
    · rw [if_pos ha, if_pos (by rw [ha, zero_mul])]
      rfl
    · rw [if_neg ha, if_neg (mul_ne_zero ha hk)]
      rfl

theorem normalize_nil (n : Nat) (c : Rat) : normalize n c [] = ofRat c := by
  have hwith : ∀ multiply power, normalizeWith multiply power c [] = ofRat c := by
    intro multiply power
    have hone : one.isOne = true := by simp [isOne, one, toRat?_ofRat]
    unfold normalizeWith ofRat
    split
    · rfl
    · simp [Monomial.collectFactors, shares, rootIndices, ofTerm, Monomial.one, *]
  cases n with
  | zero => exact hwith _ _
  | succ n => exact hwith _ _

theorem inverse?_ofRat (a : Rat) : (ofRat a).inverse? = (Rational.inverse? a).map ofRat := by
  by_cases ha : a = 0
  · rw [ha, ofRat_zero, inverse?, inverseWith_zero]
    rfl
  · have hsingle : (ofRat a).singleTerm? = some (Monomial.one, a) := by
      simp [ofRat, ha, singleTerm?]
    have hzero : (ofRat a).isZero = false := by simp [isZero_ofRat, ha]
    rw [inverse?, maxRationalizations, inverseWith, if_neg (Bool.eq_false_iff.1 hzero)]
    simp only [hsingle]
    rw [show Monomial.one.scaleExponents (-1) = [] from rfl, normalize_nil]
    simp [Rational.inverse?, ha]

theorem divide?_ofRat {a b : Rat} (hb : b ≠ 0) :
    (ofRat a).divide? (ofRat b) = some (ofRat (a / b)) := by
  rw [divide?, inverse?_ofRat, Rational.inverse?, if_neg hb, Option.map_some, Option.map_some,
    mul_ofRat, div_eq_mul_inv]

theorem divide?_ofRat_zero (f : Form) : f.divide? (ofRat 0) = none := by
  rw [divide?, inverse?_ofRat]
  rfl

/-- Arithmetic on constants is the arithmetic of rational numbers. -/
theorem scalarMap_ofRat : ScalarMap ofRat where
  zero := ofRat_zero
  one := rfl
  add a b := (add_ofRat a b).symm
  mul a b := (mulWith_ofRat _ a b).symm
  neg a := (neg_ofRat a).symm
  isZero := isZero_ofRat
  inverse := inverse?_ofRat

/-- The sum of constants is a constant. -/
theorem sumAll_ofRat (qs : List Rat) : sumAll (qs.map ofRat) = ofRat qs.sum := by
  have hconstant : ∃ q, sumAll (qs.map ofRat) = ofRat q := by
    refine sumAll_of_closed (C := fun f => ∃ q, f = ofRat q) ⟨0, ofRat_zero.symm⟩ ?_ ?_
    · rintro _ _ ⟨a, rfl⟩ ⟨b, rfl⟩
      exact ⟨a + b, add_ofRat a b⟩
    · intro f hf
      obtain ⟨q, -, rfl⟩ := List.mem_map.1 hf
      exact ⟨q, rfl⟩
  obtain ⟨q, hq⟩ := hconstant
  -- which constant it is shows under any valuation
  have hvalue := value_sumAll (fun _ => (0 : Rat)) (qs.map ofRat)
  rw [hq, value_ofRat, List.map_map] at hvalue
  rw [hq]
  congr 1
  simpa [Function.comp_def, value_ofRat] using hvalue

end Resolvent.Form

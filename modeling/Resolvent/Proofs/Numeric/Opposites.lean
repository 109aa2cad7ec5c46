import Mathlib
import Resolvent.Form.Sum
import Resolvent.Form.Evaluation

namespace Resolvent

open Float.Model (UnpackedFloat Format)
open Float.Model.UnpackedFloat (Sign)

namespace Double

/-- Both are zero, or the second is the opposite of the first. -/
def UnpackedOpposes (u v : UnpackedFloat) : Prop :=
  (∃ s t, u = .zero s ∧ v = .zero t) ∨ v = u.neg

variable {u v w u' v' : UnpackedFloat}

theorem neg_mul_sign (s t : Sign) : -s * t = -(s * t) := by
  cases s <;> cases t <;> rfl

theorem neg_div_sign (s t : Sign) : -s / t = -(s / t) := by
  cases s <;> cases t <;> rfl

theorem neg_apply (s : Sign) (n : Int) : (-s).apply n = -s.apply n := by
  cases s
  · exact (Int.neg_neg n).symm
  · rfl

theorem roundWithAccuracy_neg (S : Format) (s : Sign) (m : Nat) (e : Int)
    (a : UnpackedFloat.Accuracy) :
    UnpackedFloat.roundWithAccuracy S (-s) m e a =
      (UnpackedFloat.roundWithAccuracy S s m e a).neg := by
  unfold UnpackedFloat.roundWithAccuracy
  dsimp only
  split <;> rfl

theorem normalize_neg (S : Format) (m e : Int) (s : Sign) :
    UnpackedOpposes (UnpackedFloat.normalize S m e s) (UnpackedFloat.normalize S (-m) e s) := by
  unfold UnpackedFloat.normalize UnpackedFloat.round
  rcases Int.lt_trichotomy m 0 with h | h | h
  · right
    rw [Int.compare_eq_lt.2 h, Int.compare_eq_gt.2 (by omega : 0 < -m)]
    exact roundWithAccuracy_neg S .negative _ _ _
  · left
    subst h
    exact ⟨s, s, rfl, rfl⟩
  · right
    rw [Int.compare_eq_gt.2 h, Int.compare_eq_lt.2 (by omega : -m < 0), Int.neg_neg]
    exact roundWithAccuracy_neg S .positive _ _ _

theorem UnpackedOpposes.neg (h : UnpackedOpposes u v) : UnpackedOpposes u.neg v.neg := by
  rcases h with ⟨s, t, rfl, rfl⟩ | rfl
  · exact .inl ⟨-s, -t, rfl, rfl⟩
  · exact .inr rfl

theorem UnpackedOpposes.symm (h : UnpackedOpposes u v) : UnpackedOpposes v u := by
  rcases h with ⟨s, t, rfl, rfl⟩ | rfl
  · exact .inl ⟨t, s, rfl, rfl⟩
  · refine .inr ?_
    cases u with
    | notANumber => rfl
    | infinity s | zero s | finite s => cases s <;> rfl

theorem UnpackedOpposes.mul (S : Format) (h : UnpackedOpposes u v) (w : UnpackedFloat) :
    UnpackedOpposes (.mul S u w) (.mul S v w) := by
  rcases h with ⟨s, t, rfl, rfl⟩ | rfl
  · cases w with
    | infinity | notANumber => exact .inr rfl
    | zero | finite => exact .inl ⟨_, _, rfl, rfl⟩
  · right
    cases u <;> cases w <;>
      simp [UnpackedFloat.mul, UnpackedFloat.neg, neg_mul_sign, roundWithAccuracy_neg]

theorem UnpackedOpposes.div (S : Format) (h : UnpackedOpposes u v) (w : UnpackedFloat) :
    UnpackedOpposes (.div S u w) (.div S v w) := by
  rcases h with ⟨s, t, rfl, rfl⟩ | rfl
  · cases w with
    | zero | notANumber => exact .inr rfl
    | infinity | finite => exact .inl ⟨_, _, rfl, rfl⟩
  · right
    cases u <;> cases w <;>
      simp [UnpackedFloat.div, UnpackedFloat.neg, neg_div_sign, roundWithAccuracy_neg]

theorem UnpackedOpposes.add (S : Format) (h : UnpackedOpposes u v) (h' : UnpackedOpposes u' v') :
    UnpackedOpposes (.add S u u') (.add S v v') := by
  rcases h with ⟨s, t, rfl, rfl⟩ | rfl
  · rcases h' with ⟨s', t', rfl, rfl⟩ | rfl
    · left
      cases s <;> cases t <;> cases s' <;> cases t' <;> exact ⟨_, _, rfl, rfl⟩
    · cases u' with
      | zero s' =>
        left
        cases s <;> cases t <;> cases s' <;> exact ⟨_, _, rfl, rfl⟩
      | _ => exact .inr rfl
  · rcases h' with ⟨s', t', rfl, rfl⟩ | rfl
    · cases u with
      | zero s =>
        left
        cases s <;> cases s' <;> cases t' <;> exact ⟨_, _, rfl, rfl⟩
      | _ => exact .inr rfl
    · cases u with
      | notANumber => exact .inr rfl
      | infinity s =>
        cases u' with
        | infinity s' =>
          right
          cases s <;> cases s' <;> rfl
        | _ => exact .inr rfl
      | zero s =>
        cases u' with
        | zero s' =>
          left
          cases s <;> cases s' <;> exact ⟨_, _, rfl, rfl⟩
        | _ => exact .inr rfl
      | finite s m e hm =>
        cases u' with
        | finite s' m' e' hm' =>
          have h := normalize_neg S (s.apply (UnpackedFloat.decreaseExponent m e (min e e')).1 +
            s'.apply (UnpackedFloat.decreaseExponent m' e' (min e e')).1) (min e e') .positive
          rw [Int.neg_add, ← neg_apply, ← neg_apply] at h
          exact h
        | _ => exact .inr rfl

theorem sub_eq_add_neg (S : Format) (u v : UnpackedFloat) :
    UnpackedFloat.sub S u v = .add S u v.neg := by
  cases u <;> cases v <;>
    simp [UnpackedFloat.sub, UnpackedFloat.add, UnpackedFloat.neg, neg_apply, Int.sub_eq_add_neg]

/-! ### Packing -/

/-- Encodings that differ in the sign alone stand for opposites. -/
theorem unpack_eq_neg {S : Format} {b c : BitVec S.numBits}
    (hmantissa : UnpackedFloat.unpackMantissa b = UnpackedFloat.unpackMantissa c)
    (hexponent : UnpackedFloat.unpackExponent b = UnpackedFloat.unpackExponent c)
    (hsign : Sign.ofBitVec (UnpackedFloat.unpackSign b) =
      -Sign.ofBitVec (UnpackedFloat.unpackSign c)) :
    UnpackedFloat.unpack S b = (UnpackedFloat.unpack S c).neg := by
  unfold UnpackedFloat.unpack
  simp only [hmantissa, hexponent, hsign]
  split
  · split <;> rfl
  · split
    · split <;> rfl
    · rfl

theorem unpack_packComponents_neg (S : Format) (s : Sign) (e : BitVec S.exponentBits)
    (m : BitVec S.mantissaBitsWithoutImplicit) :
    UnpackedFloat.unpack S (UnpackedFloat.packComponents S (-s) e m) =
      (UnpackedFloat.unpack S (UnpackedFloat.packComponents S s e m)).neg := by
  refine unpack_eq_neg ?_ ?_ ?_
  · rw [UnpackedFloat.unpackMantissa_packComponents, UnpackedFloat.unpackMantissa_packComponents]
  · rw [UnpackedFloat.unpackExponent_packComponents, UnpackedFloat.unpackExponent_packComponents]
  · rw [UnpackedFloat.unpackSign_packComponents, UnpackedFloat.unpackSign_packComponents]
    cases s <;> rfl

theorem unpack_pack_neg (u : UnpackedFloat) :
    (Float.Model.pack u.neg).unpack = (Float.Model.pack u).unpack.neg := by
  change UnpackedFloat.unpack Format.binary64 (UnpackedFloat.pack _ u.neg) =
    (UnpackedFloat.unpack Format.binary64 (UnpackedFloat.pack _ u)).neg
  cases u with
  | notANumber => rfl
  | infinity s => exact unpack_packComponents_neg _ s _ _
  | zero s => exact unpack_packComponents_neg _ s _ _
  | finite s m e hm =>
    rw [UnpackedFloat.neg, UnpackedFloat.pack, UnpackedFloat.pack]
    dsimp only
    split
    · exact unpack_packComponents_neg _ s _ _
    · split <;> exact unpack_packComponents_neg _ s _ _

theorem UnpackedOpposes.pack (h : UnpackedOpposes u v) :
    UnpackedOpposes (Float.Model.pack u).unpack (Float.Model.pack v).unpack := by
  rcases h with ⟨s, t, rfl, rfl⟩ | rfl
  · left
    cases s <;> cases t <;> exact ⟨_, _, rfl, rfl⟩
  · exact .inr (unpack_pack_neg u)

/-! ### Doubles -/

/-- Both doubles are zero, or the second is the opposite of the first. -/
def Opposes (x y : Float) : Prop := UnpackedOpposes x.toModel.unpack y.toModel.unpack

variable {x y x' y' : Float}

theorem Opposes.add (h : Opposes x y) (h' : Opposes x' y') : Opposes (x + x') (y + y') :=
  (UnpackedOpposes.add Format.binary64 h h').pack

theorem Opposes.sub (h : Opposes x y) (h' : Opposes x' y') : Opposes (x - x') (y - y') := by
  have hsum := UnpackedOpposes.add Format.binary64 h (UnpackedOpposes.neg h')
  rw [← sub_eq_add_neg, ← sub_eq_add_neg] at hsum
  exact hsum.pack

theorem Opposes.mul (h : Opposes x y) (z : Float) : Opposes (x * z) (y * z) :=
  (UnpackedOpposes.mul Format.binary64 h z.toModel.unpack).pack

theorem Opposes.div (h : Opposes x y) (z : Float) : Opposes (x / z) (y / z) :=
  (UnpackedOpposes.div Format.binary64 h z.toModel.unpack).pack

theorem lt_zero_iff : x < 0.0 ↔ UnpackedFloat.lt x.toModel.unpack (.zero .positive) = true := by
  have hzero : (0.0 : Float).toModel.unpack = .zero .positive := rfl
  rw [← hzero]
  exact decide_eq_true_iff

theorem Opposes.symm (h : Opposes x y) : Opposes y x := UnpackedOpposes.symm h

theorem Opposes.not_lt_zero (h : Opposes x y) (hx : x < 0.0) : ¬ y < 0.0 := by
  rw [lt_zero_iff] at hx ⊢
  unfold Opposes at h
  generalize x.toModel.unpack = u at h hx
  generalize y.toModel.unpack = v at h
  rcases h with ⟨s, t, rfl, rfl⟩ | rfl
  · cases hx
  · cases u with
    | notANumber | zero s => cases hx
    | infinity s | finite s m e hm =>
      cases s with
      | positive => cases hx
      | negative => exact nofun

theorem opposes_zero : Opposes 0.0 0.0 := .inl ⟨.positive, .positive, rfl, rfl⟩

/-- The sign bit makes an encoding one of the opposite. -/
theorem unpack_of_add_signBit {n k : Nat} (hn : n < signBit) (hk : k = n + signBit) :
    UnpackedFloat.unpack Format.binary64 (UInt64.ofNat k).toBitVec =
      (UnpackedFloat.unpack Format.binary64 (UInt64.ofNat n).toBitVec).neg := by
  unfold signBit at hn hk
  have hmantissa : @UnpackedFloat.unpackMantissa Format.binary64
      (UInt64.ofNat k).toBitVec =
      @UnpackedFloat.unpackMantissa Format.binary64 (UInt64.ofNat n).toBitVec := by
    apply BitVec.eq_of_toNat_eq
    simp [UnpackedFloat.unpackMantissa]
    omega
  have hexponent : @UnpackedFloat.unpackExponent Format.binary64
      (UInt64.ofNat k).toBitVec =
      @UnpackedFloat.unpackExponent Format.binary64 (UInt64.ofNat n).toBitVec := by
    apply BitVec.eq_of_toNat_eq
    simp [UnpackedFloat.unpackExponent, Nat.shiftRight_eq_div_pow]
    omega
  have hsign : @UnpackedFloat.unpackSign Format.binary64
      (UInt64.ofNat k).toBitVec = 1#1 ∧
      @UnpackedFloat.unpackSign Format.binary64 (UInt64.ofNat n).toBitVec = 0#1 := by
    constructor <;>
    · apply BitVec.eq_of_toNat_eq
      simp [UnpackedFloat.unpackSign, Nat.shiftRight_eq_div_pow]
      omega
  refine unpack_eq_neg hmantissa hexponent ?_
  rw [hsign.1, hsign.2]
  rfl

theorem opposes_ofSignedBits {n : Nat} (hn : n < signBit) :
    Opposes (ofSignedBits false n) (ofSignedBits true n) :=
  UnpackedOpposes.pack (.inr (unpack_of_add_signBit hn rfl))

theorem opposes_ofInteger (n : Int) : Opposes (ofInteger n) (ofInteger (-n)) := by
  have hbits : nearestBits n.natAbs 1 < signBit :=
    Nat.lt_of_le_of_lt (nearestBits_le n.natAbs 1) (by decide)
  unfold ofInteger ofFraction
  rw [Int.natAbs_neg]
  rcases Int.lt_trichotomy n 0 with h | rfl | h
  · rw [decide_eq_true h, decide_eq_false (by omega : ¬ -n < 0)]
    exact (opposes_ofSignedBits hbits).symm
  · exact opposes_zero
  · rw [decide_eq_false (by omega : ¬ n < 0), decide_eq_true (by omega : -n < 0)]
    exact opposes_ofSignedBits hbits

theorem opposes_ofRational (q : Rat) : Opposes (ofRational q) (ofRational (-q)) :=
  (opposes_ofInteger q.num).div _

end Double

/-! ### Complex numbers and forms -/

/-- Both parts are opposite. -/
structure Complex.Opposes (z w : Complex) : Prop where
  /-- The real parts are opposite. -/
  re : Double.Opposes z.re w.re
  /-- The imaginary parts are opposite. -/
  im : Double.Opposes z.im w.im

namespace Complex.Opposes

variable {z w z' w' : Complex}

theorem add (h : z.Opposes w) (h' : z'.Opposes w') : (z.add z').Opposes (w.add w') :=
  ⟨h.re.add h'.re, h.im.add h'.im⟩

theorem mul (h : z.Opposes w) (u : Complex) : (z.mul u).Opposes (w.mul u) :=
  ⟨(h.re.mul u.re).sub (h.im.mul u.im), (h.re.mul u.im).add (h.im.mul u.re)⟩

end Complex.Opposes

variable {unit : AngleUnit} {value : Nat → Option Complex}

theorem Complex.opposes_zero : Complex.zero.Opposes Complex.zero :=
  ⟨Double.opposes_zero, Double.opposes_zero⟩

theorem Monomial.evaluateFactors_opposes (factors : List (Atom × Int)) {z w : Complex}
    (h : z.Opposes w) :
    (evaluateFactors unit value z factors).Opposes (evaluateFactors unit value w factors) := by
  induction factors generalizing z w with
  | nil =>
    rw [evaluateFactors, evaluateFactors]
    exact h
  | cons x factors ih =>
    rw [evaluateFactors, evaluateFactors]
    exact ih (h.mul _)

theorem Form.evaluateTerms_opposes (terms : List (Monomial × Rat)) {z w : Complex}
    (h : z.Opposes w) :
    (evaluateTerms unit value z terms).Opposes
      (evaluateTerms unit value w (terms.map fun t => (t.1, -t.2))) := by
  induction terms generalizing z w with
  | nil =>
    rw [List.map_nil, evaluateTerms, evaluateTerms]
    exact h
  | cons t terms ih =>
    obtain ⟨⟨factors⟩, q⟩ := t
    rw [List.map_cons, evaluateTerms, evaluateTerms, Monomial.evaluate, Monomial.evaluate]
    refine ih (h.add (Monomial.evaluateFactors_opposes factors
      ⟨Double.opposes_ofRational q, Double.opposes_zero⟩))

/-- Opposite forms have opposite values, up to the signs of zeros. -/
theorem Form.opposes_evaluate_neg (f : Form) :
    (f.evaluate unit value).Opposes (f.neg.evaluate unit value) := by
  obtain ⟨terms⟩ := f
  rw [neg, evaluate, evaluate]
  exact evaluateTerms_opposes terms Complex.opposes_zero

end Resolvent

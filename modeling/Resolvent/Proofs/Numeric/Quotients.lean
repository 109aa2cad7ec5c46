import Resolvent.Proofs.Numeric.DoubleOrder
import Resolvent.Proofs.Numeric.Opposites

/-!
# Quotients of whole numbers in doubles

Whole numbers with at most 53 bits are doubles (`Double.inBinade_ofInteger`), and the quotient of two
doubles is correctly rounded (`Double.InBinade.div`): the division of significands keeps one bit too
many or none, and what it leaves says how to round (`Double.roundedMantissa_extendedQuotient`).  So
the double of a rational number whose numerator and denominator have at most 53 bits differs from it
by at most the part `2 ^ -53` (`Double.zero_add_ofRational_spec`).
-/

namespace Resolvent.Double

open Float.Model (UnpackedFloat Format)
open Float.Model.UnpackedFloat (Sign Accuracy ExtendedMantissa)

/-! ### Encodings in a binade -/

theorem log2_eq {m : Nat} (hlow : hiddenBit ≤ m) (hhigh : m < 2 * hiddenBit) : m.log2 = 52 :=
  (Nat.log2_eq_iff (by unfold hiddenBit at hlow; omega)).2 ⟨hlow, hhigh⟩

/-- An encoding with a field that is neither the first nor the last. -/
theorem unpack_of_toNat {b : BitVec Format.binary64.numBits} {m : Nat} {e : Int} (hm : 0 < m)
    (hlow : hiddenBit ≤ m) (hhigh : m < 2 * hiddenBit) (he : -1074 ≤ e) (he' : e ≤ 971)
    (h : b.toNat = (e + 1075).toNat * hiddenBit + (m - hiddenBit)) :
    UnpackedFloat.unpack Format.binary64 b = .finite .positive m e hm := by
  obtain ⟨f, hf⟩ : ∃ f : Nat, e + 1075 = f := ⟨(e + 1075).toNat, by omega⟩
  rw [hf, Int.toNat_natCast] at h
  unfold hiddenBit at *
  have hmantissa : (UnpackedFloat.unpackMantissa b).toNat = m - 4503599627370496 := by
    simp [UnpackedFloat.unpackMantissa, h]
    omega
  have hexponent : (UnpackedFloat.unpackExponent b).toNat = f := by
    simp [UnpackedFloat.unpackExponent, Nat.shiftRight_eq_div_pow, h]
    omega
  have hsign : UnpackedFloat.unpackSign b = 0#1 := by
    apply BitVec.eq_of_toNat_eq
    simp [UnpackedFloat.unpackSign, Nat.shiftRight_eq_div_pow, h]
    omega
  have hlast : UnpackedFloat.unpackExponent b ≠ -1#_ := by
    intro heq
    rw [heq] at hexponent
    simp at hexponent
    omega
  have hfirst : UnpackedFloat.unpackExponent b ≠ 0#_ := by
    intro heq
    rw [heq] at hexponent
    simp at hexponent
    omega
  have hwhole : (1#1 ++ UnpackedFloat.unpackMantissa b).toNat = m := by
    rw [BitVec.toNat_append, ← Nat.shiftLeft_add_eq_or_of_lt (BitVec.isLt _), hmantissa]
    simp
    omega
  have hfield : (f : Int) - ((Format.binary64.exponentBias : Int) +
      (Format.binary64.mantissaBitsWithoutImplicit : Int)) = e := by
    simp [Format.exponentBias]
    omega
  unfold UnpackedFloat.unpack
  simp only [hlast, hfirst, if_false, hsign, hwhole, hexponent, hfield]
  rfl

/-- The encoding that a double in a binade is packed to. -/
theorem toNat_pack {m : Nat} {e : Int} (hm : 0 < m) (hlow : hiddenBit ≤ m)
    (hhigh : m < 2 * hiddenBit) (he : -1074 ≤ e) (he' : e ≤ 971) :
    (UnpackedFloat.pack Format.binary64 (.finite .positive m e hm)).toNat =
      (e + 1075).toNat * hiddenBit + (m - hiddenBit) := by
  have hlog := log2_eq hlow hhigh
  unfold hiddenBit at *
  have hbias : (e + (Format.binary64.exponentBias : Int) +
      (Format.binary64.mantissaBitsWithoutImplicit : Int)).toNat = (e + 1075).toNat := by
    congr 1
    simp [Format.exponentBias]
    omega
  unfold UnpackedFloat.pack
  dsimp only
  rw [hbias, if_neg (by simp; omega), if_pos (by rw [hlog]; rfl)]
  unfold UnpackedFloat.packComponents
  rw [BitVec.toNat_append, BitVec.toNat_append]
  simp only [Sign.toBitVec, BitVec.toNat_ofNat, pow_one, Nat.zero_mod, Nat.zero_shiftLeft,
    Nat.reducePow, Nat.zero_or]
  rw [← Nat.shiftLeft_add_eq_or_of_lt (by omega), Nat.shiftLeft_eq]
  omega

/-- What is packed is unpacked again. -/
theorem unpack_pack {m : Nat} {e : Int} (hm : 0 < m) (hlow : hiddenBit ≤ m)
    (hhigh : m < 2 * hiddenBit) (he : -1074 ≤ e) (he' : e ≤ 971) :
    (Float.Model.pack (.finite .positive m e hm)).unpack = .finite .positive m e hm :=
  unpack_of_toNat hm hlow hhigh he he' (toNat_pack hm hlow hhigh he he')

/-- A double that is positive and in a binade: its significand and exponent. -/
structure InBinade (x : Float) (m : Nat) (e : Int) : Prop where
  /-- The significand has the hidden bit. -/
  low : hiddenBit ≤ m
  /-- The significand has no more bits. -/
  high : m < 2 * hiddenBit
  /-- The exponent is not too small. -/
  least : -1074 ≤ e
  /-- The exponent is not too large. -/
  greatest : e ≤ 971
  /-- The double is made up of both. -/
  unpack : ∃ hm, x.toModel.unpack = .finite .positive m e hm

theorem toModel_ofSignedBits (bits : Nat) : (ofSignedBits false bits).toModel =
    Float.Model.pack (UnpackedFloat.unpack Format.binary64 (UInt64.ofNat bits).toBitVec) := rfl

/-! ### Whole numbers -/

section Whole

variable {n : Nat} (hpos : 0 < n) (hn : n < 2 * hiddenBit)

include hpos hn

theorem log2_le : n.log2 ≤ 52 := Nat.lt_succ_iff.1 ((Nat.log2_lt hpos.ne').2 hn)

theorem shiftLeft_bounds :
    hiddenBit ≤ n <<< (52 - n.log2) ∧ n <<< (52 - n.log2) < 2 * hiddenBit := by
  have hlog := log2_le hpos hn
  have hlow := Nat.log2_self_le hpos.ne'
  have hhigh := Nat.lt_log2_self (n := n)
  have hpow : 2 ^ n.log2 * 2 ^ (52 - n.log2) = hiddenBit := by
    rw [← Nat.pow_add, Nat.add_sub_cancel' hlog]
    rfl
  rw [Nat.shiftLeft_eq, ← hpow]
  constructor
  · exact Nat.mul_le_mul_right _ hlow
  · rw [← Nat.mul_assoc, ← Nat.pow_succ']
    exact Nat.mul_lt_mul_of_pos_right hhigh (Nat.two_pow_pos _)

theorem unitExponent_one : unitExponent n 1 = (n.log2 : Int) - 52 := by
  have hlog := log2_le hpos hn
  have hlow : ¬ ((n.log2 : Int) - ((1 : Nat).log2 : Nat) - 53 < -1074) := by
    rw [show (1 : Nat).log2 = 0 from rfl]
    omega
  have hshift : (-((n.log2 : Int) - ((1 : Nat).log2 : Nat) - 53)).toNat = 52 - n.log2 + 1 := by
    rw [show (1 : Nat).log2 = 0 from rfl]
    omega
  have hunit : ((n.log2 : Int) - ((1 : Nat).log2 : Nat) - 53).toNat = 0 := by omega
  unfold unitExponent
  dsimp only
  rw [if_neg hlow, hshift, hunit, Nat.shiftLeft_zero, Nat.div_one, if_pos]
  · rw [show (1 : Nat).log2 = 0 from rfl]
    omega
  · have hbounds := shiftLeft_bounds hpos hn
    rw [Nat.shiftLeft_add, Nat.shiftLeft_eq _ 1]
    omega

/-- A whole number with at most 53 bits is encoded exactly. -/
theorem nearestBits_one :
    nearestBits n 1 = (n.log2 + 1023) * hiddenBit + (n <<< (52 - n.log2) - hiddenBit) := by
  have hlog := log2_le hpos hn
  have hbounds := shiftLeft_bounds hpos hn
  have hshift : (-((n.log2 : Int) - 52)).toNat = 52 - n.log2 := by omega
  have hunit : ((n.log2 : Int) - 52).toNat = 0 := by omega
  have hfield : ((n.log2 : Int) - 52 + 1074).toNat = n.log2 + 1022 := by omega
  unfold nearestBits
  rw [if_neg hpos.ne', unitExponent_one hpos hn]
  dsimp only
  rw [hshift, hunit, hfield, Nat.shiftLeft_zero, roundQuotient_one]
  unfold infinityBits hiddenBit at *
  rw [if_neg (by omega)]
  omega

/-- The double of a whole number with at most 53 bits. -/
theorem inBinade_ofInteger :
    InBinade (ofInteger n) (n <<< (52 - n.log2)) ((n.log2 : Int) - 52) := by
  have hlog := log2_le hpos hn
  obtain ⟨hlow, hhigh⟩ := shiftLeft_bounds hpos hn
  have hm : 0 < n <<< (52 - n.log2) := Nat.lt_of_lt_of_le (by decide) hlow
  refine ⟨hlow, hhigh, by omega, by omega, hm, ?_⟩
  have hinteger : ofInteger n = ofSignedBits false (nearestBits n 1) := by
    rw [ofInteger, ofFraction, decide_eq_false (Int.not_lt.2 n.cast_nonneg), Int.natAbs_natCast]
  have hbits : (UInt64.ofNat (nearestBits n 1)).toBitVec.toNat =
      ((n.log2 : Int) - 52 + 1075).toNat * hiddenBit + (n <<< (52 - n.log2) - hiddenBit) := by
    have hlt : nearestBits n 1 < UInt64.size := Nat.lt_of_le_of_lt (nearestBits_le n 1) (by decide)
    rw [show ((n.log2 : Int) - 52 + 1075).toNat = n.log2 + 1023 by omega, ← nearestBits_one hpos hn]
    exact UInt64.toNat_ofNat_of_lt hlt
  rw [hinteger, toModel_ofSignedBits, unpack_of_toNat hm hlow hhigh (by omega : -1074 ≤ (n.log2 : Int) - 52)
    (by omega) hbits, unpack_pack hm hlow hhigh (by omega) (by omega)]

end Whole

/-! ### Rounding -/

/-- A quotient with the accuracy of its fraction. -/
def extendedQuotient (n d : Nat) : ExtendedMantissa :=
  .ofMantissaAndAccuracy (n / d) (UnpackedFloat.accuracyOfFraction (n % d) d)

variable {n d : Nat}

theorem roundedMantissa_extendedQuotient (hd : 0 < d) :
    (extendedQuotient n d).roundedMantissa = roundQuotient n d := by
  unfold extendedQuotient UnpackedFloat.accuracyOfFraction roundQuotient
  dsimp only
  by_cases hzero : n % d = 0
  · rw [if_pos hzero, if_pos (by omega)]
    rfl
  · rw [if_neg hzero]
    rcases Nat.lt_trichotomy (2 * (n % d)) d with h | h | h
    · rw [Nat.compare_eq_lt.2 h, if_pos h]
      rfl
    · rw [Nat.compare_eq_eq.2 h, if_neg (by omega), if_neg (by omega)]
      rfl
    · rw [Nat.compare_eq_gt.2 h, if_neg (by omega), if_pos h]
      rfl

/-- A shift to the right halves the quotient. -/
theorem roundedMantissa_shiftRight_extendedQuotient (hd : 0 < d) :
    (extendedQuotient n d >>> 1).roundedMantissa = roundQuotient n (d * 2) := by
  have hquotient : n / (d * 2) = n / d / 2 := (Nat.div_div_eq_div_mul n d 2).symm
  have hrest : n % (d * 2) = n % d + d * (n / d % 2) := Nat.mod_mul
  have hlt := Nat.mod_lt n hd
  have hsticky : ((extendedQuotient n d).roundBit || (extendedQuotient n d).stickyBit) =
      decide (n % d ≠ 0) := by
    unfold extendedQuotient UnpackedFloat.accuracyOfFraction
    by_cases hzero : n % d = 0
    · rw [if_pos hzero]
      simp [hzero, ExtendedMantissa.ofMantissaAndAccuracy]
    · rw [if_neg hzero]
      cases compare (2 * (n % d)) d <;> simp [hzero, ExtendedMantissa.ofMantissaAndAccuracy]
  have hmantissa : (extendedQuotient n d).mantissa = n / d := by
    unfold extendedQuotient UnpackedFloat.accuracyOfFraction
    split
    · rfl
    · cases compare (2 * (n % d)) d <;> rfl
  change (ExtendedMantissa.shiftRightOne (extendedQuotient n d)).roundedMantissa = _
  unfold ExtendedMantissa.shiftRightOne ExtendedMantissa.roundedMantissa roundQuotient
  rw [hsticky, hmantissa]
  dsimp only
  rw [hquotient, hrest]
  rcases Nat.mod_two_eq_zero_or_one (n / d) with h | h <;> rw [h]
  · rw [if_pos (by omega)]
    by_cases hzero : n % d = 0 <;> simp [hzero, ExtendedMantissa.accuracy, Accuracy.roundToNearestEven]
  · by_cases hzero : n % d = 0
    · rw [if_neg (by omega), if_neg (by omega)]
      simp [hzero, ExtendedMantissa.accuracy, Accuracy.roundToNearestEven]
    · rw [if_neg (by omega), if_pos (by omega)]
      simp [hzero, ExtendedMantissa.accuracy, Accuracy.roundToNearestEven]

/-- The rounded quotient is the nearest whole number. -/
theorem abs_roundQuotient_sub_le (hd : 0 < d) : |(roundQuotient n d : Rat) - n / d| ≤ 1 / 2 := by
  have hd' : (0 : Rat) < d := Nat.cast_pos.2 hd
  have hn : (n : Rat) / d = (n / d : Nat) + ((n % d : Nat) : Rat) / d := by
    have := Nat.div_add_mod n d
    field_simp
    norm_cast
    linarith
  have hrest : ((n % d : Nat) : Rat) / d < 1 := (div_lt_one hd').2 (Nat.cast_lt.2 (Nat.mod_lt n hd))
  have hnonneg : (0 : Rat) ≤ ((n % d : Nat) : Rat) / d := by positivity
  rw [hn, roundQuotient]
  split
  · next h =>
    have : ((n % d : Nat) : Rat) / d < 1 / 2 := by
      rw [div_lt_div_iff₀ hd' two_pos]
      exact_mod_cast (by omega : n % d * 2 < 1 * d)
    rw [abs_le]
    constructor <;> linarith
  · split
    · next h =>
      have : 1 / 2 < ((n % d : Nat) : Rat) / d := by
        rw [div_lt_div_iff₀ two_pos hd']
        exact_mod_cast (by omega : 1 * d < n % d * 2)
      push_cast
      rw [abs_le]
      constructor <;> linarith
    · next h h' =>
      have : ((n % d : Nat) : Rat) / d = 1 / 2 := by
        rw [div_eq_div_iff hd'.ne' two_ne_zero]
        exact_mod_cast (by omega : n % d * 2 = 1 * d)
      rw [this]
      rcases Nat.mod_two_eq_zero_or_one (n / d) with hpar | hpar <;> rw [hpar] <;> push_cast <;>
        norm_num

theorem targetExponent_of_log2 {m k : Nat} {e : Int} (hm : m.log2 = 52 + k) (he : -1074 ≤ e + k) :
    Format.binary64.targetExponent (Float.Model.totalExponent m e) = e + k := by
  simp only [Format.targetExponent, Float.Model.totalExponent, Format.mantissaBits,
    Format.minExponent, hm]
  norm_num
  omega

theorem shiftToTargetExponent_of_log2 {m k : Nat} {e : Int} (a : Accuracy) (hm : m.log2 = 52 + k)
    (he : -1074 ≤ e + k) :
    UnpackedFloat.shiftToTargetExponent Format.binary64 m e a =
      (ExtendedMantissa.ofMantissaAndAccuracy m a >>> k, e + k) := by
  unfold UnpackedFloat.shiftToTargetExponent UnpackedFloat.shiftToExponent
  dsimp only
  rw [targetExponent_of_log2 hm he, add_sub_cancel_left, Int.toNat_natCast]

/-- Rounding a significand with some bits too many, where a carry may lead into the next binade. -/
theorem exists_roundWithAccuracy_eq {m k : Nat} {e : Int} {a : Accuracy} (s : Sign)
    (hm : m.log2 = 52 + k) (he : -1074 ≤ e + k) {r : Nat}
    (hr : (ExtendedMantissa.ofMantissaAndAccuracy m a >>> k).roundedMantissa = r)
    (hlow : hiddenBit ≤ r) (hhigh : r ≤ 2 * hiddenBit) :
    ∃ (m' : Nat) (e' : Int) (hm' : 0 < m'),
      UnpackedFloat.roundWithAccuracy Format.binary64 s m e a = .finite s m' e' hm' ∧
      hiddenBit ≤ m' ∧ m' < 2 * hiddenBit ∧ e + k ≤ e' ∧ e' ≤ e + k + 1 ∧
      (m' : Rat) * 2 ^ e' = r * 2 ^ (e + k) := by
  have hpos : 0 < hiddenBit := by decide
  unfold UnpackedFloat.roundWithAccuracy
  rw [shiftToTargetExponent_of_log2 a hm he]
  dsimp only
  rw [hr]
  rcases Nat.lt_or_ge r (2 * hiddenBit) with hlt | hge
  · have hshift := shiftToTargetExponent_of_log2 (k := 0) (e := e + k) .exact (log2_eq hlow hlt)
      (by simpa using he)
    rw [Nat.cast_zero, Int.add_zero] at hshift
    rw [hshift]
    refine ⟨r, e + k, Nat.lt_of_lt_of_le hpos hlow, ?_, hlow, hlt, le_rfl, by omega, rfl⟩
    exact dif_neg (Nat.lt_of_lt_of_le hpos hlow).ne'
  · obtain rfl : r = 2 * hiddenBit := Nat.le_antisymm hhigh hge
    rw [shiftToTargetExponent_of_log2 (k := 1) .exact (by decide) (by omega)]
    refine ⟨hiddenBit, e + k + 1, hpos, ?_, le_rfl, by decide, by omega, le_rfl, ?_⟩
    · exact dif_neg hpos.ne'
    · rw [zpow_add_one₀ two_ne_zero]
      push_cast
      ring

theorem div_le_roundQuotient (n d : Nat) : n / d ≤ roundQuotient n d := by
  unfold roundQuotient
  dsimp only
  split
  · exact le_rfl
  · split <;> omega

theorem roundQuotient_le (n d : Nat) : roundQuotient n d ≤ n / d + 1 := by
  unfold roundQuotient
  dsimp only
  split
  · omega
  · split <;> omega

/-- The quotient of two significands, of which the first is shifted far enough, has one bit too many
or none. -/
theorem exists_log2_div {m l : Nat} (hm : hiddenBit ≤ m) (hm' : m < 2 * hiddenBit)
    (hl : hiddenBit ≤ l) (hl' : l < 2 * hiddenBit) :
    ∃ k ≤ 1, (m <<< 53 / l).log2 = 52 + k ∧
      (extendedQuotient (m <<< 53) l >>> k).roundedMantissa = roundQuotient (m <<< 53) (l * 2 ^ k) ∧
      hiddenBit ≤ m <<< 53 / (l * 2 ^ k) ∧ m <<< 53 / (l * 2 ^ k) < 2 * hiddenBit := by
  have hpos : 0 < l := Nat.lt_of_lt_of_le (by decide) hl
  rw [Nat.shiftLeft_eq]
  unfold hiddenBit at *
  rcases Nat.lt_or_ge m l with hlt | hge
  · have hlow : 4503599627370496 ≤ m * 2 ^ 53 / l := (Nat.le_div_iff_mul_le hpos).2 (by omega)
    have hhigh : m * 2 ^ 53 / l < 2 * 4503599627370496 :=
      (Nat.div_lt_iff_lt_mul hpos).2 (by omega)
    refine ⟨0, by omega, log2_eq hlow hhigh, ?_⟩
    rw [pow_zero, Nat.mul_one]
    exact ⟨roundedMantissa_extendedQuotient hpos, hlow, hhigh⟩
  · have hlow : 4503599627370496 ≤ m * 2 ^ 53 / (l * 2) :=
      (Nat.le_div_iff_mul_le (by omega)).2 (by omega)
    have hhigh : m * 2 ^ 53 / (l * 2) < 2 * 4503599627370496 :=
      (Nat.div_lt_iff_lt_mul (by omega)).2 (by omega)
    refine ⟨1, le_rfl, (Nat.log2_eq_iff ?_).2 ⟨?_, ?_⟩, ?_⟩
    · rw [← Nat.div_div_eq_div_mul] at hlow
      omega
    · rw [← Nat.div_div_eq_div_mul] at hlow
      omega
    · rw [← Nat.div_div_eq_div_mul] at hhigh
      omega
    · rw [pow_one]
      exact ⟨roundedMantissa_shiftRight_extendedQuotient hpos, hlow, hhigh⟩

theorem divCore_eq {m l : Nat} {e i : Int} (hm : m.log2 = 52) (hl : l.log2 = 52)
    (he : -1074 ≤ e - i - 53) : UnpackedFloat.divCore Format.binary64 m e l i =
      (m <<< 53 / l, e - i - 53, UnpackedFloat.accuracyOfFraction (m <<< 53 % l) l) := by
  have htarget : min (e - i) (Format.binary64.targetExponent
      (Float.Model.totalExponent m e - Float.Model.totalExponent l i)) = e - i - 53 := by
    simp only [Format.targetExponent, Float.Model.totalExponent, Format.mantissaBits,
      Format.minExponent, hm, hl]
    norm_num
    omega
  unfold UnpackedFloat.divCore
  dsimp only
  rw [htarget, show (e - i - (e - i - 53)).toNat = 53 by omega]

variable {x y : Float} {m l : Nat} {e i : Int}

/-- Scaling the rounded quotient keeps its error, relative to the quotient. -/
theorem abs_roundQuotient_mul_sub_le {n d : Nat} (hd : 0 < d) (hlow : hiddenBit ≤ n / d) (j : Int) :
    |(roundQuotient n d : Rat) * 2 ^ j - n / d * 2 ^ j| ≤ n / d * 2 ^ j / 2 ^ 53 := by
  have hunit : (0 : Rat) < 2 ^ j := zpow_pos two_pos _
  have hquotient : (hiddenBit : Rat) ≤ n / d :=
    (Nat.cast_le.2 hlow).trans Nat.cast_div_le
  have hhalf : (1 : Rat) / 2 ≤ n / d / 2 ^ 53 := by
    rw [le_div_iff₀ (by positivity)]
    refine le_trans (by norm_num [hiddenBit]) hquotient
  rw [← sub_mul, abs_mul, abs_of_pos hunit, mul_div_right_comm]
  exact mul_le_mul_of_nonneg_right ((abs_roundQuotient_sub_le hd).trans hhalf) hunit.le

theorem shiftLeft_div_eq {m l k : Nat} (hl : 0 < l) (e i : Int) :
    ((m <<< 53 : Nat) : Rat) / (l * 2 ^ k : Nat) * 2 ^ (e - i - 53 + k) =
      m * 2 ^ e / (l * 2 ^ i) := by
  have hl' : (l : Rat) ≠ 0 := Nat.cast_ne_zero.2 hl.ne'
  rw [Nat.shiftLeft_eq, zpow_add₀ two_ne_zero, zpow_sub₀ two_ne_zero, zpow_sub₀ two_ne_zero,
    zpow_natCast]
  push_cast
  field_simp

/-- **The quotient of two doubles is correctly rounded**: half a unit in the last place is at most
the part `2 ^ -53` of the quotient. -/
theorem InBinade.div (hx : InBinade x m e) (hy : InBinade y l i) (hleast : -1074 ≤ e - i - 53)
    (hgreatest : e - i ≤ 1000) :
    ∃ m' e', InBinade (x / y) m' e' ∧
      |(m' : Rat) * 2 ^ e' - m * 2 ^ e / (l * 2 ^ i)| ≤ m * 2 ^ e / (l * 2 ^ i) / 2 ^ 53 := by
  obtain ⟨hm, hunpackx⟩ := hx.unpack
  obtain ⟨hl, hunpacky⟩ := hy.unpack
  obtain ⟨k, hk, hlog, hround, hlowk, hhighk⟩ := exists_log2_div hx.low hx.high hy.low hy.high
  obtain ⟨m', e', hm', hrounded, hlow', hhigh', he', he'', hvalue⟩ :=
    exists_roundWithAccuracy_eq .positive hlog (e := e - i - 53) (by omega) hround
      (hlowk.trans (div_le_roundQuotient _ _)) ((roundQuotient_le _ _).trans hhighk)
  refine ⟨m', e', ⟨hlow', hhigh', by omega, by omega, hm', ?_⟩, ?_⟩
  · change (Float.Model.pack (UnpackedFloat.div Format.binary64 x.toModel.unpack
      y.toModel.unpack)).unpack = _
    rw [hunpackx, hunpacky, UnpackedFloat.div, divCore_eq (log2_eq hx.low hx.high)
      (log2_eq hy.low hy.high) hleast]
    exact (congrArg (fun u => (Float.Model.pack u).unpack) hrounded).trans
      (unpack_pack hm' hlow' hhigh' (by omega) (by omega))
  · rw [hvalue, ← shiftLeft_div_eq (k := k) hl]
    exact abs_roundQuotient_mul_sub_le (by positivity) hlowk _

/-! ### Exact values -/

theorem InBinade.toRational_eq (h : InBinade x m e) : toRational x = m * 2 ^ e := by
  obtain ⟨hm, hunpack⟩ := h.unpack
  obtain ⟨hsign, hm, he⟩ := parts_of_unpack hunpack
  rw [Double.toRational_eq, if_neg (fun hneg => by cases hsign.1 hneg), hm, he, one_mul]

theorem InBinade.toRational_of_opposes (h : InBinade x m e) (hopposes : Opposes x y) :
    toRational y = -(m * 2 ^ e) := by
  obtain ⟨hm, hunpack⟩ := h.unpack
  unfold Opposes at hopposes
  rw [hunpack] at hopposes
  obtain ⟨s, t, hzero, -⟩ | hneg := hopposes
  · cases hzero
  · obtain ⟨hsign, hm, he⟩ := parts_of_unpack (hneg : y.toModel.unpack = .finite .negative m e hm)
    rw [Double.toRational_eq, if_pos (hsign.2 rfl), hm, he, neg_one_mul]

theorem InBinade.isNaN_eq_false (h : InBinade x m e) : x.isNaN = false := by
  obtain ⟨hm, hunpack⟩ := h.unpack
  change x.toModel.unpack.isNaN = false
  rw [hunpack]
  rfl

theorem InBinade.isNaN_eq_false_of_opposes (h : InBinade x m e) (hopposes : Opposes x y) :
    y.isNaN = false := by
  obtain ⟨hm, hunpack⟩ := h.unpack
  unfold Opposes at hopposes
  rw [hunpack] at hopposes
  change y.toModel.unpack.isNaN = false
  obtain ⟨s, t, hzero, -⟩ | hneg := hopposes
  · cases hzero
  · rw [hneg]
    rfl

/-- Adding a double to zero leaves it alone. -/
theorem InBinade.zero_add (h : InBinade x m e) : InBinade (0.0 + x) m e := by
  obtain ⟨hm, hunpack⟩ := h.unpack
  refine ⟨h.low, h.high, h.least, h.greatest, hm, ?_⟩
  change (Float.Model.pack (UnpackedFloat.add Format.binary64 (.zero .positive)
    x.toModel.unpack)).unpack = _
  rw [hunpack]
  exact unpack_pack hm h.low h.high h.least h.greatest

theorem shiftLeft_mul_eq {n : Nat} (hpos : 0 < n) (hn : n < 2 * hiddenBit) :
    ((n <<< (52 - n.log2) : Nat) : Rat) * 2 ^ ((n.log2 : Int) - 52) = n := by
  have hlog := log2_le hpos hn
  rw [Nat.shiftLeft_eq, Nat.cast_mul, Nat.cast_pow, mul_assoc, Nat.cast_ofNat, ← zpow_natCast,
    ← zpow_add₀ two_ne_zero, show ((52 - n.log2 : Nat) : Int) + ((n.log2 : Int) - 52) = 0 by omega,
    zpow_zero, mul_one]

/-- The double of a positive rational number, where numerator and denominator are exact. -/
theorem exists_inBinade_ofRational {q : Rat} (hq : 0 < q) (hnum : q.num.natAbs < 2 * hiddenBit)
    (hden : q.den < 2 * hiddenBit) :
    ∃ m e, InBinade (ofRational q) m e ∧ |(m : Rat) * 2 ^ e - q| ≤ q / 2 ^ 53 := by
  have hpos : 0 < q.num := Rat.num_pos.2 hq
  obtain ⟨n, hn⟩ : ∃ n : Nat, q.num = n := ⟨q.num.toNat, by omega⟩
  have hvalue : (n : Rat) / q.den = q := by
    have hquotient := Rat.num_div_den q
    rwa [hn, Int.cast_natCast] at hquotient
  rw [hn] at hpos hnum
  have hpos : 0 < n := by omega
  have hlogn := log2_le hpos hnum
  have hlogd := log2_le q.den_pos hden
  obtain ⟨m, e, hbinade, herror⟩ := (inBinade_ofInteger hpos hnum).div
    (inBinade_ofInteger q.den_pos hden) (by omega) (by omega)
  rw [shiftLeft_mul_eq hpos hnum, shiftLeft_mul_eq q.den_pos hden, hvalue] at herror
  rw [← hn] at hbinade
  exact ⟨m, e, hbinade, herror⟩

/-- **The double of a rational number is within the part `2 ^ -53` of it**, where numerator and
denominator have at most 53 bits. -/
theorem zero_add_ofRational_spec {q : Rat} (hq : q ≠ 0) (hnum : q.num.natAbs < 2 * hiddenBit)
    (hden : q.den < 2 * hiddenBit) : (0.0 + ofRational q).isNaN = false ∧
      |toRational (0.0 + ofRational q) - q| ≤ |q| / 2 ^ 53 := by
  rcases lt_or_gt_of_ne hq with hneg | hpos
  · have hneg : 0 < -q := neg_pos.2 hneg
    obtain ⟨m, e, hbinade, herror⟩ := exists_inBinade_ofRational hneg
      (by rwa [Rat.num_neg_eq_neg_num, Int.natAbs_neg]) (by rwa [Rat.den_neg_eq_den])
    have hopposes := opposes_zero.add (opposes_ofRational (-q))
    rw [neg_neg] at hopposes
    refine ⟨hbinade.zero_add.isNaN_eq_false_of_opposes hopposes, ?_⟩
    rw [hbinade.zero_add.toRational_of_opposes hopposes, abs_of_neg (neg_pos.1 hneg)]
    rwa [← abs_neg, neg_sub, sub_neg_eq_add, add_comm, ← sub_neg_eq_add]
  · obtain ⟨m, e, hbinade, herror⟩ := exists_inBinade_ofRational hpos hnum hden
    refine ⟨hbinade.zero_add.isNaN_eq_false, ?_⟩
    rwa [hbinade.zero_add.toRational_eq, abs_of_pos hpos]

end Resolvent.Double

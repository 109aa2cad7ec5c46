import Mathlib
import Resolvent.Number.Double

/-!
# The order of doubles

The encodings of doubles without a sign count up the doubles that are not negative
(`Double.magnitude_mono`), so doubles stand in their total order as their exact values do
(`Double.rank_lt_of_toRational_lt`).  The parts of a double are those that arithmetic unpacks it to
(`Double.parts_of_unpack`).
-/

namespace Resolvent.Double

open Float.Model (UnpackedFloat Format)
open Float.Model.UnpackedFloat (Sign)

/-! ### Encodings in order -/

/-- The value of an encoding without a sign, in units of the least double. -/
def magnitude (bits : Nat) : Nat :=
  if bits / hiddenBit = 0 then bits % hiddenBit
  else (bits % hiddenBit + hiddenBit) * 2 ^ (bits / hiddenBit - 1)

/-- Larger encodings are of larger doubles. -/
theorem magnitude_mono {a b : Nat} (h : a ≤ b) : magnitude a ≤ magnitude b := by
  have hrest : ∀ n, n % hiddenBit < hiddenBit := fun n => Nat.mod_lt n (by decide)
  have hfield : a / hiddenBit ≤ b / hiddenBit := Nat.div_le_div_right h
  unfold magnitude
  rcases Nat.eq_or_lt_of_le hfield with heq | hlt
  · -- within a binade the rest counts up
    have ha := Nat.div_add_mod a hiddenBit
    have hb := Nat.div_add_mod b hiddenBit
    rw [heq] at ha ⊢
    have hle : a % hiddenBit ≤ b % hiddenBit := by omega
    split
    · exact hle
    · exact Nat.mul_le_mul_right _ (Nat.add_le_add_right hle _)
  · -- what is before a binade is less than twice the hidden bit in its units
    rw [if_neg (Nat.ne_of_gt (Nat.lt_of_le_of_lt (Nat.zero_le _) hlt))]
    have hnext : hiddenBit * 2 ^ (b / hiddenBit - 1) ≤
        (b % hiddenBit + hiddenBit) * 2 ^ (b / hiddenBit - 1) :=
      Nat.mul_le_mul_right _ (Nat.le_add_left _ _)
    refine Nat.le_trans ?_ hnext
    split
    · exact Nat.le_trans (hrest a).le (Nat.le_mul_of_pos_right _ (Nat.two_pow_pos _))
    · next hpos =>
      calc (a % hiddenBit + hiddenBit) * 2 ^ (a / hiddenBit - 1)
          ≤ (hiddenBit * 2) * 2 ^ (a / hiddenBit - 1) := by
            rw [Nat.mul_two]
            exact Nat.mul_le_mul_right _ (Nat.add_le_add_right (hrest a).le _)
        _ = hiddenBit * 2 ^ (a / hiddenBit) := by
            rw [Nat.mul_assoc, ← Nat.pow_succ', Nat.succ_eq_add_one,
              Nat.sub_add_cancel (Nat.pos_of_ne_zero hpos)]
        _ ≤ hiddenBit * 2 ^ (b / hiddenBit - 1) :=
          Nat.mul_le_mul_left _ (Nat.pow_le_pow_right two_pos (Nat.le_sub_one_of_lt hlt))

/-! ### Exact values -/

theorem fraction_eq (p : Parts) : mkRat p.fraction.1 p.fraction.2 =
    (p.significand : Rat) * 2 ^ p.exponent := by
  obtain ⟨negative, m, e⟩ := p
  unfold Parts.fraction
  dsimp only
  rw [Nat.shiftLeft_eq, Nat.shiftLeft_eq, Nat.one_mul, Rat.mkRat_eq_div]
  push_cast
  rcases Int.le_total 0 e with he | he
  · rw [Int.toNat_eq_zero.2 (by omega : -e ≤ 0), pow_zero, div_one, ← zpow_natCast,
      Int.toNat_of_nonneg he]
  · rw [Int.toNat_eq_zero.2 he, pow_zero, mul_one, ← zpow_natCast,
      Int.toNat_of_nonneg (by omega : 0 ≤ -e), zpow_neg, div_inv_eq_mul]

/-- The exact value of a double is its significand times the power of two, with its sign. -/
theorem toRational_eq (x : Float) : toRational x =
    (if (parts x).negative then -1 else 1) * ((parts x).significand * 2 ^ (parts x).exponent) := by
  rw [← fraction_eq]
  change mkRat (if (parts x).negative then _ else _) _ = _
  rw [Rat.mkRat_eq_div, Rat.mkRat_eq_div]
  split
  · rw [Int.cast_neg, neg_div, neg_one_mul]
    rfl
  · rw [one_mul]
    rfl

/-- The encoding without the sign bit. -/
def unsignedBits (x : Float) : Nat := x.toBits.toNat % signBit

theorem significand_mul_eq (x : Float) : ((parts x).significand : Rat) * 2 ^ (parts x).exponent =
    magnitude (unsignedBits x) * 2 ^ (-1074 : Int) := by
  have hfield : unsignedBits x / hiddenBit = x.toBits.toNat / hiddenBit % 2048 := by
    unfold unsignedBits signBit hiddenBit
    omega
  have hrest : unsignedBits x % hiddenBit = x.toBits.toNat % hiddenBit := by
    unfold unsignedBits signBit hiddenBit
    omega
  rw [magnitude, hfield, hrest, parts]
  dsimp only
  split
  · rfl
  · next hfield =>
    rw [show ((x.toBits.toNat / hiddenBit % 2048 : Nat) : Int) - 1075 =
      ((x.toBits.toNat / hiddenBit % 2048 - 1 : Nat) : Int) + -1074 by omega,
      zpow_add₀ two_ne_zero, zpow_natCast, ← mul_assoc]
    norm_cast

/-- The exact value of a double, by its encoding. -/
theorem toRational_eq_magnitude (x : Float) : toRational x =
    (if signBit ≤ x.toBits.toNat then -1 else 1) *
      (magnitude (unsignedBits x) * 2 ^ (-1074 : Int)) := by
  rw [toRational_eq, significand_mul_eq]
  simp [parts]

/-- **Doubles are in the total order if their exact values are in order.** -/
theorem rank_lt_of_toRational_lt {x y : Float} (h : toRational x < toRational y) :
    rank x < rank y := by
  have hunit : (0 : Rat) < 2 ^ (-1074 : Int) := zpow_pos two_pos _
  have hmagnitude : ∀ {a b : Nat}, (magnitude a : Rat) * 2 ^ (-1074 : Int) <
      magnitude b * 2 ^ (-1074 : Int) → a < b := by
    intro a b hlt
    have hlt : magnitude a < magnitude b := Nat.cast_lt.1 (lt_of_mul_lt_mul_right hlt hunit.le)
    exact not_le.1 fun hle => absurd (magnitude_mono hle) (not_le.2 hlt)
  have hnonneg : ∀ a, (0 : Rat) ≤ magnitude a * 2 ^ (-1074 : Int) := fun a => by positivity
  have hx : unsignedBits x = x.toBits.toNat % signBit := rfl
  have hy : unsignedBits y = y.toBits.toNat % signBit := rfl
  have hlt : ∀ z : Float, z.toBits.toNat < 2 * signBit := fun z => UInt64.toNat_lt _
  have hltx := hlt x
  have hlty := hlt y
  rw [toRational_eq_magnitude, toRational_eq_magnitude] at h
  unfold rank
  dsimp only
  unfold signBit at *
  by_cases hxneg : 9223372036854775808 ≤ x.toBits.toNat <;>
    by_cases hyneg : 9223372036854775808 ≤ y.toBits.toNat
  · simp only [hxneg, hyneg, if_true, neg_one_mul, neg_lt_neg_iff] at h ⊢
    have := hmagnitude h
    omega
  · simp only [hxneg, hyneg, if_true, if_false]
    omega
  · simp only [hxneg, hyneg, if_true, if_false, neg_one_mul, one_mul] at h
    have := hnonneg (unsignedBits x)
    have := hnonneg (unsignedBits y)
    linarith
  · simp only [hxneg, hyneg, if_false, one_mul] at h ⊢
    have := hmagnitude h
    omega

/-! ### What encodings are unpacked to -/

theorem negative_iff {x : Float} : (parts x).negative = true ↔
    @UnpackedFloat.unpackSign Format.binary64 x.toModel.toBits.toBitVec ≠ 0#1 := by
  have hbits : (parts x).negative = decide (signBit ≤ x.toModel.toBits.toNat) := rfl
  have hlt : x.toModel.toBits.toNat < 18446744073709551616 := UInt64.toNat_lt _
  rw [hbits, decide_eq_true_iff, Ne, ← BitVec.toNat_inj]
  simp [UnpackedFloat.unpackSign, Nat.shiftRight_eq_div_pow, signBit]
  omega

/-- The parts of a double are those that it is unpacked to. -/
theorem parts_of_unpack {x : Float} {s : Sign} {m : Nat} {e : Int} {hm : 0 < m}
    (h : x.toModel.unpack = .finite s m e hm) :
    ((parts x).negative = true ↔ s = .negative) ∧ (parts x).significand = m ∧
      (parts x).exponent = e := by
  have hmantissa : (@UnpackedFloat.unpackMantissa Format.binary64 x.toModel.toBits.toBitVec).toNat =
      x.toBits.toNat % hiddenBit := by
    unfold hiddenBit
    simp [UnpackedFloat.unpackMantissa]
    rfl
  have hexponent : (@UnpackedFloat.unpackExponent Format.binary64 x.toModel.toBits.toBitVec).toNat =
      x.toBits.toNat / hiddenBit % 2048 := by
    unfold hiddenBit
    simp [UnpackedFloat.unpackExponent, Nat.shiftRight_eq_div_pow]
    rfl
  have hsign : Sign.ofBitVec (@UnpackedFloat.unpackSign Format.binary64
      x.toModel.toBits.toBitVec) = .negative ↔ (parts x).negative = true := by
    rw [negative_iff, Sign.ofBitVec]
    split <;> simp_all
  have hbias : (Format.binary64.exponentBias : Int) +
      (Format.binary64.mantissaBitsWithoutImplicit : Int) = 1075 := by decide
  unfold Float.Model.unpack UnpackedFloat.unpack at h
  rw [hbias] at h
  dsimp only at h
  rw [← hsign]
  unfold parts
  dsimp only
  rw [← hmantissa, ← hexponent]
  split at h
  · split at h <;> cases h
  · split at h
    · next hfirst =>
      split at h
      · cases h
      · cases h
        rw [hfirst]
        exact ⟨Iff.rfl, rfl, rfl⟩
    · next hfirst =>
      cases h
      have hfield : (@UnpackedFloat.unpackExponent Format.binary64
          x.toModel.toBits.toBitVec).toNat ≠ 0 := fun hzero => hfirst (BitVec.eq_of_toNat_eq hzero)
      rw [if_neg hfield, if_neg hfield, BitVec.toNat_append,
        ← Nat.shiftLeft_add_eq_or_of_lt (BitVec.isLt _)]
      exact ⟨Iff.rfl, Nat.add_comm _ _, rfl⟩

end Resolvent.Double

import Resolvent.Proofs.Numeric.Quotients

/-!
# Which rational numbers have finite doubles

Whole numbers have finite doubles below `2 ^ 1024 - 2 ^ 970` (`Double.leastInfinite`), where rounding
leads out of the last binade.  A quotient of doubles in a binade is finite unless the exponents are
far apart, since rounding adds one at most to the exponent (`Double.isFinite_roundWithAccuracy`).

The double of a rational number is the quotient of two doubles.  So a rational number of moderate
size has a finite double exactly if its numerator has one: a denominator that has none only makes
the quotient zero, and a numerator that has none makes it infinite or no number
(`Double.isFinite_ofRational`).
-/

namespace Resolvent.Double

open Float.Model (UnpackedFloat Format)
open Float.Model.UnpackedFloat (Sign Accuracy ExtendedMantissa)

/-! ### Finite encodings -/

theorem isFinite_unpack (b : BitVec Format.binary64.numBits) :
    (UnpackedFloat.unpack Format.binary64 b).isFinite =
      decide (UnpackedFloat.unpackExponent b ≠ -1#_) := by
  unfold UnpackedFloat.unpack
  dsimp only
  split
  · next h =>
    rw [decide_eq_false (not_not_intro h)]
    split <;> rfl
  · next h =>
    rw [decide_eq_true h]
    split
    · split <;> rfl
    · rfl

/-- What is packed is finite if its exponent is not too large. -/
theorem isFinite_pack {s : Sign} {m : Nat} {e : Int} {hm : 0 < m} :
    (Float.Model.pack (.finite s m e hm)).unpack.isFinite = decide (e ≤ 971) := by
  change (UnpackedFloat.unpack Format.binary64
    (UnpackedFloat.pack Format.binary64 (.finite s m e hm))).isFinite = _
  have hbias : (Format.binary64.exponentBias : Int) +
      (Format.binary64.mantissaBitsWithoutImplicit : Int) = 1075 := by decide
  rw [isFinite_unpack]
  unfold UnpackedFloat.pack
  dsimp only
  rw [add_assoc, hbias]
  split
  · next h =>
    have h : 2048 ≤ (e + 1075).toNat + 1 := h
    rw [UnpackedFloat.packedInfinity, UnpackedFloat.unpackExponent_packComponents]
    exact decide_eq_decide.2 ⟨fun hne => absurd rfl hne, fun hle => by omega⟩
  · next h =>
    have h : ¬ 2048 ≤ (e + 1075).toNat + 1 := h
    have hle : e ≤ 971 := by omega
    rw [decide_eq_true hle, decide_eq_true_iff]
    split
    · rw [UnpackedFloat.unpackExponent_packComponents]
      intro heq
      have heq := congrArg BitVec.toNat heq
      have hmod : (e + 1075).toNat % 2048 = (e + 1075).toNat := Nat.mod_eq_of_lt (by omega)
      simp [hmod] at heq
      omega
    · rw [UnpackedFloat.unpackExponent_packComponents]
      decide

/-- The exponent of a finite double is not too large. -/
theorem le_of_unpack {x : Float} {s : Sign} {m : Nat} {e : Int} {hm : 0 < m}
    (h : x.toModel.unpack = .finite s m e hm) : e ≤ 971 := by
  have hbias : (Format.binary64.exponentBias : Int) +
      (Format.binary64.mantissaBitsWithoutImplicit : Int) = 1075 := by decide
  have hlt := (@UnpackedFloat.unpackExponent Format.binary64
    x.toModel.toBits.toBitVec).isLt
  unfold Float.Model.unpack UnpackedFloat.unpack at h
  rw [hbias] at h
  dsimp only at h
  split at h
  · split at h <;> cases h
  · next hlast =>
    have hne : (@UnpackedFloat.unpackExponent Format.binary64
        x.toModel.toBits.toBitVec).toNat ≠ 2047 := fun heq => hlast (BitVec.eq_of_toNat_eq heq)
    split at h
    · next hfirst =>
      split at h
      · cases h
      · cases h
        rw [hfirst]
        decide
    · cases h
      have hlt : (@UnpackedFloat.unpackExponent Format.binary64
        x.toModel.toBits.toBitVec).toNat < 2048 := hlt
      omega

/-- Adding zero keeps a double finite or not. -/
theorem isFinite_zero_add (x : Float) : (0.0 + x).isFinite = x.isFinite := by
  change (Float.Model.pack (UnpackedFloat.add Format.binary64 (.zero .positive)
    x.toModel.unpack)).unpack.isFinite = UnpackedFloat.isFinite x.toModel.unpack
  cases h : x.toModel.unpack with
  | finite s m e hm =>
    refine isFinite_pack.trans ?_
    exact decide_eq_true (le_of_unpack h)
  | infinity s => cases s <;> rfl
  | zero s => cases s <;> rfl
  | notANumber => rfl

/-- Opposite doubles are both finite or both not. -/
theorem Opposes.isFinite_eq {x y : Float} (h : Opposes x y) : y.isFinite = x.isFinite := by
  change UnpackedFloat.isFinite y.toModel.unpack = UnpackedFloat.isFinite x.toModel.unpack
  obtain ⟨s, t, hx, hy⟩ | hneg := h
  · rw [hx, hy]
    rfl
  · rw [hneg]
    cases x.toModel.unpack <;> rfl

/-! ### Rounding -/

theorem mantissa_shiftRight (M : ExtendedMantissa) (k : Nat) :
    (M >>> k).mantissa = M.mantissa / 2 ^ k := by
  induction k with
  | zero => exact (Nat.div_one _).symm
  | succ k ih =>
    change (M >>> k).mantissa / 2 = _
    rw [ih, Nat.div_div_eq_div_mul, Nat.pow_succ]

theorem mantissa_ofMantissaAndAccuracy (m : Nat) (a : Accuracy) :
    (ExtendedMantissa.ofMantissaAndAccuracy m a).mantissa = m := by
  cases a with
  | exact => rfl
  | inexact o => cases o <;> rfl

theorem roundedMantissa_le (M : ExtendedMantissa) : M.roundedMantissa ≤ M.mantissa + 1 := by
  unfold ExtendedMantissa.roundedMantissa
  cases M.accuracy with
  | exact => exact Nat.le_succ _
  | inexact o =>
    cases o
    · exact Nat.le_succ _
    · exact Nat.add_le_add_left (Nat.lt_succ_iff.1 (Nat.mod_lt _ two_pos)) _
    · exact le_rfl

theorem targetExponent_eq (t : Int) :
    Format.binary64.targetExponent t = max (t - 53) (-1074) := by
  unfold Format.targetExponent
  rfl

/-- A significand shifted to its target exponent has at most 53 bits. -/
theorem shift_lt (m : Nat) (e : Int) :
    m / 2 ^ (Format.binary64.targetExponent (Float.Model.totalExponent m e) - e).toNat <
      2 * hiddenBit := by
  rw [targetExponent_eq, Float.Model.totalExponent, Nat.div_lt_iff_lt_mul (Nat.two_pow_pos _),
    show 2 * hiddenBit = 2 ^ 53 by rfl, ← Nat.pow_add]
  exact Nat.lt_log2_self.trans_le (Nat.pow_le_pow_right two_pos (by omega))

/-- Rounding keeps a number below the last binade finite. -/
theorem isFinite_roundWithAccuracy (s : Sign) {m : Nat} {e : Int} (a : Accuracy) (he : e ≤ 970)
    (hm : m.log2 + e ≤ 1022) :
    (Float.Model.pack (UnpackedFloat.roundWithAccuracy Format.binary64 s m e a)).unpack.isFinite =
      true := by
  have hshift := shift_lt m e
  unfold UnpackedFloat.roundWithAccuracy UnpackedFloat.shiftToTargetExponent
    UnpackedFloat.shiftToExponent
  dsimp only
  have hk : e + ((Format.binary64.targetExponent (Float.Model.totalExponent m e) - e).toNat : Int) ≤
      970 := by
    rw [targetExponent_eq, Float.Model.totalExponent]
    omega
  generalize (Format.binary64.targetExponent (Float.Model.totalExponent m e) - e).toNat = k at *
  have hrounded := roundedMantissa_le (ExtendedMantissa.ofMantissaAndAccuracy m a >>> k)
  rw [mantissa_shiftRight, mantissa_ofMantissaAndAccuracy] at hrounded
  generalize (ExtendedMantissa.ofMantissaAndAccuracy m a >>> k).roundedMantissa = r at *
  split
  · cases s <;> rfl
  · refine isFinite_pack.trans (decide_eq_true ?_)
    have hlog : r.log2 < 54 := by
      rcases Nat.eq_zero_or_pos r with hr | hr
      · subst hr
        decide
      · refine (Nat.log2_lt hr.ne').2 (hrounded.trans_lt ?_)
        unfold hiddenBit at hshift
        omega
    rw [targetExponent_eq, Float.Model.totalExponent]
    omega

variable {x y : Float} {m l : Nat} {e i : Int}

/-- A quotient of doubles in a binade is finite unless the exponents are far apart. -/
theorem InBinade.isFinite_div (hx : InBinade x m e) (hy : InBinade y l i) (h : e - i ≤ 1022) :
    (x / y).isFinite = true := by
  obtain ⟨hm, hunpackx⟩ := hx.unpack
  obtain ⟨hl, hunpacky⟩ := hy.unpack
  change (Float.Model.pack (UnpackedFloat.div Format.binary64 x.toModel.unpack
    y.toModel.unpack)).unpack.isFinite = true
  rw [hunpackx, hunpacky, UnpackedFloat.div, UnpackedFloat.divCore]
  dsimp only
  have htarget : Format.binary64.targetExponent
      (Float.Model.totalExponent m e - Float.Model.totalExponent l i) =
        max (e - i - 53) (-1074) := by
    rw [targetExponent_eq, Float.Model.totalExponent, Float.Model.totalExponent,
      log2_eq hx.low hx.high, log2_eq hy.low hy.high]
    congr 1
    omega
  rw [htarget]
  have hlow := hy.low
  have hhigh := hx.high
  have hleast := hx.least
  have hgreatest := hy.greatest
  obtain ⟨k, hk⟩ : ∃ k : Nat, e - i - min (e - i) (max (e - i - 53) (-1074)) = k :=
    ⟨(e - i - min (e - i) (max (e - i - 53) (-1074))).toNat, by omega⟩
  rw [hk, Int.toNat_natCast]
  -- the quotient of the significands is less than two
  have hquotient : m <<< k / l < 2 ^ (k + 1) := by
    rw [Nat.shiftLeft_eq, Nat.div_lt_iff_lt_mul hl, Nat.pow_succ, Nat.mul_assoc, Nat.mul_comm]
    exact Nat.mul_lt_mul_of_pos_left (by omega) (Nat.two_pow_pos k)
  have hlog : (m <<< k / l).log2 ≤ k := by
    rcases Nat.eq_zero_or_pos (m <<< k / l) with hzero | hpos
    · rw [hzero]
      exact Nat.zero_le _
    · exact Nat.lt_succ_iff.1 ((Nat.log2_lt hpos.ne').2 hquotient)
  exact isFinite_roundWithAccuracy _ _ (by omega) (by omega)

/-! ### Whole numbers -/

theorem ofInteger_natCast (n : Nat) : ofInteger n = ofSignedBits false (nearestBits n 1) := by
  rw [ofInteger, ofFraction, decide_eq_false (Int.not_lt.2 n.cast_nonneg), Int.natAbs_natCast]

/-- A double with an encoding in a binade. -/
theorem inBinade_ofSignedBits {bits : Nat} (hlow : hiddenBit ≤ m) (hhigh : m < 2 * hiddenBit)
    (hleast : -1074 ≤ e) (hgreatest : e ≤ 971)
    (h : bits = (e + 1075).toNat * hiddenBit + (m - hiddenBit)) :
    InBinade (ofSignedBits false bits) m e := by
  have hm : 0 < m := Nat.lt_of_lt_of_le (by decide) hlow
  have hbits : (UInt64.ofNat bits).toBitVec.toNat =
      (e + 1075).toNat * hiddenBit + (m - hiddenBit) := by
    rw [← h]
    refine UInt64.toNat_ofNat_of_lt (?_ : bits < 18446744073709551616)
    unfold hiddenBit at *
    omega
  refine ⟨hlow, hhigh, hleast, hgreatest, hm, ?_⟩
  rw [toModel_ofSignedBits, unpack_of_toNat hm hlow hhigh hleast hgreatest hbits,
    unpack_pack hm hlow hhigh hleast hgreatest]

/-- Half the unit in the last place of the doubles in the last binade. -/
@[irreducible] def halfLastUnit : Nat := 2 ^ 970

theorem halfLastUnit_eq : halfLastUnit = 2 ^ 970 := by
  delta halfLastUnit
  exact Eq.refl _

theorem halfLastUnit_pos : 0 < halfLastUnit :=
  lt_of_lt_of_eq (Nat.two_pow_pos 970) halfLastUnit_eq.symm

theorem two_pow_eq_mul {j k : Nat} (h : j ≤ k) : 2 ^ k = 2 ^ (k - j) * 2 ^ j := by
  rw [← Nat.pow_add, Nat.sub_add_cancel h]

theorem two_pow_eq {k : Nat} (h : 970 ≤ k) : 2 ^ k = 2 ^ (k - 970) * halfLastUnit :=
  (two_pow_eq_mul h).trans (congrArg _ halfLastUnit_eq.symm)

/-- The least whole number whose double is infinite. -/
@[irreducible] def leastInfinite : Nat := 2 ^ 1024 - 2 ^ 970

theorem leastInfinite_eq : leastInfinite = 18014398509481983 * halfLastUnit := by
  have hpow : 2 ^ 1024 = 2 ^ (1024 - 970) * halfLastUnit := two_pow_eq (by decide)
  delta leastInfinite
  generalize 2 ^ 1024 = n at *
  rw [← halfLastUnit_eq]
  omega

theorem leastInfinite_pos : 0 < leastInfinite := by
  rw [leastInfinite_eq]
  exact Nat.mul_pos (by decide) halfLastUnit_pos

section Whole

variable {n : Nat} (hn : 2 * hiddenBit ≤ n)

include hn

theorem le_log2 : 53 ≤ n.log2 := (Nat.le_log2 (Nat.ne_of_gt (Nat.lt_of_lt_of_le (by decide) hn))).2 hn

theorem div_bounds : hiddenBit ≤ n / 2 ^ (n.log2 - 52) ∧ n / 2 ^ (n.log2 - 52) < 2 * hiddenBit := by
  have hlog := le_log2 hn
  have hpos : n ≠ 0 := Nat.ne_of_gt (Nat.lt_of_lt_of_le (by decide) hn)
  have hpow : hiddenBit * 2 ^ (n.log2 - 52) = 2 ^ n.log2 := by
    rw [show hiddenBit = 2 ^ 52 by rfl, ← Nat.pow_add, Nat.add_sub_cancel' (by omega)]
  constructor
  · rw [Nat.le_div_iff_mul_le (Nat.two_pow_pos _), hpow]
    exact Nat.log2_self_le hpos
  · rw [Nat.div_lt_iff_lt_mul (Nat.two_pow_pos _), Nat.mul_assoc, hpow, ← Nat.pow_succ']
    exact Nat.lt_log2_self

theorem unitExponent_of_large : unitExponent n 1 = (n.log2 : Int) - 52 := by
  have hlog := le_log2 hn
  have hestimate : (n.log2 : Int) - ((1 : Nat).log2 : Nat) - 53 = ((n.log2 - 53 : Nat) : Int) := by
    rw [show (1 : Nat).log2 = 0 from rfl]
    omega
  have hpow : 2 ^ (n.log2 - 52) = 2 * 2 ^ (n.log2 - 53) := by
    rw [← Nat.pow_succ']
    congr 1
    omega
  have hbounds := (div_bounds hn).1
  have hlow : ¬ ((n.log2 - 53 : Nat) : Int) < -1074 := by omega
  have hzero : (-((n.log2 - 53 : Nat) : Int)).toNat = 0 := by omega
  unfold unitExponent
  dsimp only
  rw [hestimate, if_neg hlow, Int.toNat_natCast, hzero, Nat.shiftLeft_zero, Nat.shiftLeft_eq,
    Nat.one_mul, if_pos]
  · omega
  · rw [hpow, Nat.le_div_iff_mul_le (by positivity)] at hbounds
    rw [Nat.le_div_iff_mul_le (Nat.two_pow_pos _)]
    linarith

/-- The encoding of a large whole number. -/
theorem nearestBits_of_large : nearestBits n 1 =
    min infinityBits (roundQuotient n (2 ^ (n.log2 - 52)) + (n.log2 + 1022) * hiddenBit) := by
  have hlog := le_log2 hn
  have hunit : ((n.log2 : Int) - 52).toNat = n.log2 - 52 := by omega
  have hfield : ((n.log2 : Int) - 52 + 1074).toNat = n.log2 + 1022 := by omega
  unfold nearestBits
  rw [if_neg (Nat.ne_of_gt (Nat.lt_of_lt_of_le (by decide) hn)), unitExponent_of_large hn]
  dsimp only
  rw [hunit, hfield, Int.toNat_eq_zero.2 (by omega), Nat.shiftLeft_zero, Nat.shiftLeft_eq,
    Nat.one_mul]
  split <;> omega

theorem roundQuotient_bounds : hiddenBit ≤ roundQuotient n (2 ^ (n.log2 - 52)) ∧
    roundQuotient n (2 ^ (n.log2 - 52)) ≤ 2 * hiddenBit :=
  ⟨(div_bounds hn).1.trans (div_le_roundQuotient _ _),
    (roundQuotient_le _ _).trans (div_bounds hn).2⟩

omit hn in
/-- In the last binade rounding carries from the middle between the last significand and the next
on. -/
theorem roundQuotient_lt_iff {w : Nat} (hw : 0 < w) (hquotient : n / (2 * w) < 2 * hiddenBit) :
    roundQuotient n (2 * w) < 2 * hiddenBit ↔ n < 18014398509481983 * w := by
  have hdiv := Nat.div_add_mod n (2 * w)
  have hmod := Nat.mod_lt n (Nat.mul_pos two_pos hw)
  have hround := roundQuotient_le n (2 * w)
  unfold hiddenBit at *
  rcases Nat.lt_or_ge (n / (2 * w)) 9007199254740991 with hlt | hge
  · -- the quotient is not the last of the binade
    have hle : 2 * w * (n / (2 * w)) ≤ 2 * w * 9007199254740990 :=
      Nat.mul_le_mul_left _ (Nat.le_of_lt_succ hlt)
    exact iff_of_true (by omega) (by omega)
  · have heq : n / (2 * w) = 9007199254740991 := Nat.le_antisymm (Nat.le_of_lt_succ hquotient) hge
    unfold roundQuotient
    rw [heq] at hdiv ⊢
    dsimp only
    split
    · omega
    · split <;> omega

theorem carries_iff (hlog : n.log2 = 1023) :
    roundQuotient n (2 ^ (n.log2 - 52)) < 2 * hiddenBit ↔ n < leastInfinite := by
  have hquotient := (div_bounds hn).2
  have hpow : 2 ^ (n.log2 - 52) = 2 * halfLastUnit := by
    rw [two_pow_eq (by omega), hlog]
    rfl
  rw [hpow] at hquotient ⊢
  rw [leastInfinite_eq]
  exact roundQuotient_lt_iff halfLastUnit_pos hquotient

/-- The encoding is that of infinity from the bound on. -/
theorem nearestBits_of_ge (hinfinite : leastInfinite ≤ n) : nearestBits n 1 = infinityBits := by
  have hround := roundQuotient_bounds hn
  have hlog : 1023 ≤ n.log2 := by
    have hle : 2 ^ (1023 - 970) * halfLastUnit ≤ leastInfinite := by
      rw [leastInfinite_eq]
      exact Nat.mul_le_mul_right _ (by decide)
    exact (Nat.le_log2 (Nat.ne_of_gt (Nat.lt_of_lt_of_le (by decide) hn))).2
      ((two_pow_eq (by decide)).trans_le (hle.trans hinfinite))
  rw [nearestBits_of_large hn, Nat.min_eq_left]
  rcases Nat.eq_or_lt_of_le hlog with hlast | hlast
  · have hcarry := (carries_iff hn hlast.symm).not.2 (not_lt.2 hinfinite)
    unfold infinityBits hiddenBit at *
    omega
  · unfold infinityBits hiddenBit at *
    omega

theorem log2_le_of_lt (hfinite : n < leastInfinite) : n.log2 ≤ 1023 := by
  have hpos : n ≠ 0 := Nat.ne_of_gt (Nat.lt_of_lt_of_le (by decide) hn)
  have hle : leastInfinite ≤ 2 ^ (1024 - 970) * halfLastUnit := by
    rw [leastInfinite_eq]
    exact Nat.mul_le_mul_right _ (by decide)
  exact Nat.lt_succ_iff.1 ((Nat.log2_lt hpos).2
    (hfinite.trans_le (hle.trans_eq (two_pow_eq (by decide)).symm)))

/-- The double of a large whole number below the bound. -/
theorem exists_inBinade_of_large (hfinite : n < leastInfinite) :
    ∃ m e, InBinade (ofInteger n) m e ∧ (n.log2 : Int) - 52 ≤ e ∧ e ≤ n.log2 - 51 := by
  have hlog := le_log2 hn
  have hlog' := log2_le_of_lt hn hfinite
  obtain ⟨hlow, hhigh⟩ := roundQuotient_bounds hn
  have hbits := nearestBits_of_large hn
  have hcarry : n.log2 = 1023 → roundQuotient n (2 ^ (n.log2 - 52)) < 2 * hiddenBit := fun hlast =>
    (carries_iff hn hlast).2 hfinite
  generalize roundQuotient n (2 ^ (n.log2 - 52)) = r at *
  rw [ofInteger_natCast]
  rcases Nat.eq_or_lt_of_le hhigh with hr | hr
  · have hlast : n.log2 ≠ 1023 := fun hlast => (hcarry hlast).ne hr
    refine ⟨hiddenBit, n.log2 - 51, inBinade_ofSignedBits le_rfl (by decide) (by omega) (by omega) ?_,
      by omega, le_rfl⟩
    rw [hbits, show ((n.log2 : Int) - 51 + 1075).toNat = n.log2 + 1024 by omega]
    unfold infinityBits hiddenBit at *
    omega
  · refine ⟨r, n.log2 - 52, inBinade_ofSignedBits hlow hr (by omega) (by omega) ?_, le_rfl,
      by omega⟩
    rw [hbits, show ((n.log2 : Int) - 52 + 1075).toNat = n.log2 + 1023 by omega]
    unfold infinityBits hiddenBit at *
    omega

end Whole

/-- **The double of a whole number is finite below the bound only**, and then it is in the binade of
the number or carried into the next. -/
theorem exists_inBinade_ofInteger {n : Nat} (hpos : 0 < n) (hfinite : n < leastInfinite) :
    ∃ m e, InBinade (ofInteger n) m e ∧ (n.log2 : Int) - 52 ≤ e ∧ e ≤ n.log2 - 51 := by
  rcases Nat.lt_or_ge n (2 * hiddenBit) with hn | hn
  · exact ⟨_, _, inBinade_ofInteger hpos hn, le_rfl, by omega⟩
  · exact exists_inBinade_of_large hn hfinite

theorem unpack_ofInteger_of_ge {n : Nat} (hinfinite : leastInfinite ≤ n) :
    (ofInteger n).toModel.unpack = .infinity .positive := by
  have hn : 2 * hiddenBit ≤ n := by
    rw [leastInfinite_eq] at hinfinite
    exact le_trans (by decide) ((Nat.le_mul_of_pos_right _ halfLastUnit_pos).trans hinfinite)
  rw [ofInteger_natCast, nearestBits_of_ge hn hinfinite]
  rfl

/-! ### Rational numbers -/

variable {q : Rat}

/-- Numerator and denominator of a number of moderate size have lengths that are not far apart. -/
theorem log2_num_le (hpos : 0 < q) (hsize : q ≤ 10 ^ 300) :
    q.num.natAbs.log2 ≤ q.den.log2 + 1000 := by
  have hnum : 0 < q.num := Rat.num_pos.2 hpos
  have hle : q.num.natAbs ≤ 10 ^ 300 * q.den := by
    have hquotient : (q.num : Rat) ≤ 10 ^ 300 * q.den := by
      rw [← div_le_iff₀ (Nat.cast_pos.2 q.den_pos), Rat.num_div_den]
      exact hsize
    rw [← Int.natAbs_of_nonneg hnum.le] at hquotient
    exact_mod_cast hquotient
  have hpow : 10 ^ 300 ≤ 2 ^ 1000 :=
    calc 10 ^ 300 = (10 ^ 3) ^ 100 := pow_mul 10 3 100
      _ ≤ (2 ^ 10) ^ 100 := Nat.pow_le_pow_left (by decide) 100
      _ = 2 ^ 1000 := (pow_mul 2 10 100).symm
  have hlt : q.num.natAbs < 2 ^ (q.den.log2 + 1 + 1000) := by
    rw [pow_add, mul_comm]
    exact (hle.trans (Nat.mul_le_mul_right _ hpow)).trans_lt
      (Nat.mul_lt_mul_of_pos_left Nat.lt_log2_self (Nat.two_pow_pos _))
  have hlog := (Nat.log2_lt (Int.natAbs_pos.2 hnum.ne').ne').2 hlt
  omega

/-- The double of a positive rational number of moderate size is finite exactly if its numerator has
a finite double. -/
theorem isFinite_ofRational_of_pos (hpos : 0 < q) (hsize : q ≤ 10 ^ 300) :
    (ofRational q).isFinite = decide (q.num.natAbs < leastInfinite) := by
  have hnum : 0 < q.num.natAbs := Int.natAbs_pos.2 (Rat.num_pos.2 hpos).ne'
  have hcast : q.num = (q.num.natAbs : Int) := (Int.natAbs_of_nonneg (Rat.num_pos.2 hpos).le).symm
  have hlog := log2_num_le hpos hsize
  have hdiv : ofRational q = ofInteger q.num.natAbs / ofInteger q.den := by
    rw [ofRational, ← hcast]
  rw [hdiv]
  rcases Nat.lt_or_ge q.num.natAbs leastInfinite with hlt | hge
  · rw [decide_eq_true hlt]
    obtain ⟨m, e, hx, -, he⟩ := exists_inBinade_ofInteger hnum hlt
    rcases Nat.lt_or_ge q.den leastInfinite with hden | hden
    · obtain ⟨l, i, hy, hi, -⟩ := exists_inBinade_ofInteger q.den_pos hden
      exact hx.isFinite_div hy (by omega)
    · obtain ⟨hm, hunpack⟩ := hx.unpack
      change (Float.Model.pack (UnpackedFloat.div Format.binary64 (ofInteger _).toModel.unpack
        (ofInteger _).toModel.unpack)).unpack.isFinite = true
      rw [hunpack, unpack_ofInteger_of_ge hden, UnpackedFloat.div]
      rfl
  · rw [decide_eq_false (not_lt.2 hge)]
    change (Float.Model.pack (UnpackedFloat.div Format.binary64 (ofInteger _).toModel.unpack
      (ofInteger _).toModel.unpack)).unpack.isFinite = false
    rw [unpack_ofInteger_of_ge hge]
    rcases Nat.lt_or_ge q.den leastInfinite with hden | hden
    · obtain ⟨l, i, hy, -⟩ := exists_inBinade_ofInteger q.den_pos hden
      obtain ⟨hl, hunpack⟩ := hy.unpack
      rw [hunpack, UnpackedFloat.div]
      rfl
    · rw [unpack_ofInteger_of_ge hden]
      rfl

/-- **The double of a rational number of moderate size** is finite exactly if its numerator has a
finite double, whatever its denominator is. -/
theorem isFinite_ofRational (hsize : |q| ≤ 10 ^ 300) :
    (ofRational q).isFinite = decide (q.num.natAbs < leastInfinite) := by
  rcases lt_trichotomy q 0 with hneg | rfl | hpos
  · have hopposes := (opposes_ofRational (-q)).isFinite_eq
    rw [neg_neg] at hopposes
    rw [abs_of_neg hneg] at hsize
    rw [hopposes, isFinite_ofRational_of_pos (neg_pos.2 hneg) hsize, Rat.num_neg_eq_neg_num,
      Int.natAbs_neg]
  · exact (decide_eq_true leastInfinite_pos).symm
  · exact isFinite_ofRational_of_pos hpos (by rwa [abs_of_pos hpos] at hsize)

end Resolvent.Double

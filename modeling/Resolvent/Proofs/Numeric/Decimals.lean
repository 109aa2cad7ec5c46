import Resolvent.Proofs.Numeric.Numerals
import Resolvent.Proofs.Numeric.Overflow

/-!
# The decimal numbers that doubles denote

A finite double denotes the decimal number with its shortest digits.  These depend on its sign,
significand and exponent only, so that the absolute value of a double denotes that of the decimal
number (`Double.shortestRational?_abs`), the sign of a double is that of the decimal number, and no
double but the zeros denotes zero (`Double.beq_zero_iff`).
-/

namespace Resolvent.Double

open Float.Model (UnpackedFloat Format)
open Float.Model.UnpackedFloat (Sign)

/-! ### Encodings without their signs -/

/-- The significand and the exponent of a finite double other than zero, which has the hidden bit
unless the exponent is the least. -/
theorem bounds_of_unpack {x : Float} {s : Sign} {m : Nat} {e : Int} {hm : 0 < m}
    (h : x.toModel.unpack = .finite s m e hm) :
    m < 2 * hiddenBit ∧ -1074 ≤ e ∧ e ≤ 971 ∧ (m < hiddenBit → e = -1074) := by
  have hgreatest := le_of_unpack h
  have hbias : (Format.binary64.exponentBias : Int) +
      (Format.binary64.mantissaBitsWithoutImplicit : Int) = 1075 := by decide
  have hlt := (@UnpackedFloat.unpackMantissa Format.binary64 x.toModel.toBits.toBitVec).isLt
  unfold hiddenBit
  unfold Float.Model.unpack UnpackedFloat.unpack at h
  rw [hbias] at h
  dsimp only at h
  change _ < 4503599627370496 at hlt
  split at h
  · split at h <;> cases h
  · split at h
    · next hfirst =>
      split at h
      · cases h
      · cases h
        rw [hfirst]
        exact ⟨by omega, by decide, by decide, fun _ => rfl⟩
    · next hfirst =>
      cases h
      have hfield : (@UnpackedFloat.unpackExponent Format.binary64
          x.toModel.toBits.toBitVec).toNat ≠ 0 := fun hzero => hfirst (BitVec.eq_of_toNat_eq hzero)
      have hwhole : (1#1 ++ @UnpackedFloat.unpackMantissa Format.binary64
          x.toModel.toBits.toBitVec).toNat = 4503599627370496 + (@UnpackedFloat.unpackMantissa
            Format.binary64 x.toModel.toBits.toBitVec).toNat := by
        rw [BitVec.toNat_append, ← Nat.shiftLeft_add_eq_or_of_lt (BitVec.isLt _)]
        rfl
      rw [hwhole]
      exact ⟨by omega, by omega, hgreatest, fun hsmall => by omega⟩

/-- What is packed with the least exponent is unpacked again. -/
theorem unpack_pack_of_subnormal {m : Nat} (hm : 0 < m) (h : m < hiddenBit) :
    (Float.Model.pack (.finite .positive m (-1074) hm)).unpack =
      .finite .positive m (-1074) hm := by
  unfold hiddenBit at h
  have hlog : m.log2 < 52 := (Nat.log2_lt hm.ne').2 h
  have hmod : (BitVec.ofNat Format.binary64.mantissaBitsWithoutImplicit m).toNat = m := by
    rw [BitVec.toNat_ofNat]
    exact Nat.mod_eq_of_lt h
  have hzero : BitVec.ofNat Format.binary64.mantissaBitsWithoutImplicit m ≠ 0#_ := fun hzero => by
    rw [hzero] at hmod
    exact hm.ne hmod
  have hpack : UnpackedFloat.pack Format.binary64 (.finite .positive m (-1074) hm) =
      UnpackedFloat.packComponents Format.binary64 .positive 0#_ (BitVec.ofNat _ m) := by
    unfold UnpackedFloat.pack
    dsimp only
    rw [if_neg (by decide), if_neg]
    change m.log2 + 1 ≠ 53
    omega
  change UnpackedFloat.unpack Format.binary64 (UnpackedFloat.pack _ _) = _
  rw [hpack]
  unfold UnpackedFloat.unpack
  simp only [UnpackedFloat.unpackMantissa_packComponents,
    UnpackedFloat.unpackExponent_packComponents, UnpackedFloat.unpackSign_packComponents]
  rw [if_neg (by decide), if_pos trivial, dif_neg hzero]
  congr 1

/-- The absolute value has the significand and the exponent, and no sign. -/
theorem unpack_abs {x : Float} {s : Sign} {m : Nat} {e : Int} {hm : 0 < m}
    (h : x.toModel.unpack = .finite s m e hm) :
    x.abs.toModel.unpack = .finite .positive m e hm := by
  obtain ⟨hhigh, hleast, hgreatest, hsubnormal⟩ := bounds_of_unpack h
  change (Float.Model.pack x.toModel.unpack.abs).unpack = _
  rw [h]
  rcases Nat.lt_or_ge m hiddenBit with hlt | hge
  · obtain rfl := hsubnormal hlt
    exact unpack_pack_of_subnormal hm hlt
  · exact unpack_pack hm hge hhigh hleast hgreatest

variable {x : Float} {q : Rat}

theorem isFinite_of_shortestRational? (h : shortestRational? x = some q) : x.isFinite = true := by
  unfold shortestRational? at h
  by_contra hnot
  rw [eq_false_of_ne_true hnot] at h
  cases h

/-- A finite double is zero or has a significand and an exponent. -/
theorem unpack_of_isFinite (h : x.isFinite = true) :
    (x == 0.0) = true ∧ (x.abs == 0.0) = true ∨
      (x == 0.0) = false ∧ ∃ s m e hm, x.toModel.unpack = .finite s m e hm := by
  have hfinite : UnpackedFloat.isFinite x.toModel.unpack = true := h
  have hbeq : (x == 0.0) = UnpackedFloat.beq x.toModel.unpack (.zero .positive) := rfl
  have habs : (x.abs == 0.0) =
    UnpackedFloat.beq (Float.Model.pack x.toModel.unpack.abs).unpack (.zero .positive) := rfl
  rw [hbeq, habs]
  cases hu : x.toModel.unpack with
  | zero s => exact .inl ⟨rfl, by cases s <;> rfl⟩
  | finite s m e hm => exact .inr ⟨by cases s <;> rfl, s, m, e, hm, rfl⟩
  | infinity | notANumber =>
    rw [hu] at hfinite
    cases hfinite

theorem isFinite_of_abs (h : x.abs.isFinite = true) : x.isFinite = true := by
  have habs : UnpackedFloat.isFinite (Float.Model.pack x.toModel.unpack.abs).unpack = true := h
  change UnpackedFloat.isFinite x.toModel.unpack = true
  cases hu : x.toModel.unpack with
  | zero | finite => rfl
  | infinity s => rw [hu] at habs; cases s <;> cases habs
  | notANumber => rw [hu] at habs; cases habs

/-! ### Shortest digits -/

theorem shortestRational?_of_beq_zero (h : (x == 0.0) = true) : shortestRational? x = some 0 := by
  have hfinite : x.isFinite = true := by
    have hbeq : UnpackedFloat.beq x.toModel.unpack (.zero .positive) = true := h
    change UnpackedFloat.isFinite x.toModel.unpack = true
    cases hu : x.toModel.unpack with
    | zero | finite => rfl
    | infinity s => rw [hu] at hbeq; cases s <;> cases hbeq
    | notANumber => rw [hu] at hbeq; cases hbeq
  rw [shortestRational?, hfinite, h]
  rfl

/-- The number that the digits of a finite double denote, without its sign. -/
theorem shortestRational?_eq (hfinite : x.isFinite = true) (hzero : (x == 0.0) = false) :
    shortestRational? x =
      some (if (parts x).negative then -(shortest x).value else (shortest x).value) := by
  rw [shortestRational?, hfinite, hzero]
  simp only [Bool.not_true, Bool.false_eq_true, if_false, mkRat_eq_scaled, Decimal.value]
  split
  · rw [scaled_neg]
  · rfl

/-- Decimals with digits are not zero. -/
theorem value_pos {d : Decimal} (h : d.digits ≠ 0) : 0 < d.value := by
  rw [Decimal.value, ← mkRat_eq_scaled, Rat.mkRat_eq_div]
  have hpow (k : Nat) : (0 : Rat) < (Nat.pow 10 k : Nat) := Nat.cast_pos.2 (Nat.pow_pos (by decide))
  rw [Int.cast_mul, Int.cast_natCast, Int.cast_natCast]
  exact div_pos (mul_pos (Nat.cast_pos.2 (Nat.pos_of_ne_zero h)) (hpow _)) (hpow _)

theorem digits_trimZeros_ne_zero {d : Decimal} (h : d.digits ≠ 0) (fuel : Nat) :
    (d.trimZeros fuel).digits ≠ 0 := by
  induction fuel generalizing d with
  | zero => exact h
  | succ fuel ih =>
    rw [Decimal.trimZeros]
    split
    · next hlast => exact ih (by dsimp only; omega)
    · exact h

/-- Zero is in no neighbourhood. -/
theorem Neighbourhood.not_holds_zero {p : Parts} (hp : 0 < p.significand) (k : Int) :
    (neighbourhood p).holds 0 k = false := by
  have hlow : 0 < (neighbourhood p).low := by
    unfold neighbourhood
    dsimp only
    refine Nat.mul_pos ?_ (by rw [Nat.one_shiftLeft]; exact Nat.two_pow_pos _)
    split <;> omega
  have hpos : 0 < (neighbourhood p).low * Nat.pow 10 (-k).toNat :=
    Nat.mul_pos hlow (Nat.pow_pos (by decide))
  unfold holds
  simp only [Nat.zero_mul]
  split <;> simp only [decide_eq_false_iff_not, not_and_or] <;> omega

/-- What is on the grid is in the neighbourhood, so it is not zero. -/
theorem ne_zero_of_onGrid? {p : Parts} (hp : 0 < p.significand) {k : Int} {c : Nat}
    (h : (neighbourhood p).onGrid? k = some c) : c ≠ 0 := by
  rintro rfl
  have hzero := Neighbourhood.not_holds_zero hp k
  unfold Neighbourhood.onGrid? at h
  dsimp only at h
  split at h
  · next hfirst _ =>
    split at h
    · rw [Option.some.inj h, hzero] at hfirst
      cases hfirst
    · cases h
  · next hfirst _ =>
    rw [Option.some.inj h, hzero] at hfirst
    cases hfirst
  · cases h
  · cases h

theorem digits_shortest_ne_zero (h : 0 < (parts x).significand) : (shortest x).digits ≠ 0 := by
  unfold shortest
  refine digits_trimZeros_ne_zero ?_ 20
  generalize hfound : List.findSome? _ _ = found
  rcases found with - | d
  · exact h.ne'
  · obtain ⟨i, -, hd⟩ := List.exists_of_findSome?_eq_some hfound
    obtain ⟨c, hc, rfl⟩ := Option.map_eq_some_iff.1 hd
    exact ne_zero_of_onGrid? h hc

/-- The digits are those of the significand and the exponent. -/
theorem shortest_congr {x y : Float} (hm : (parts x).significand = (parts y).significand)
    (he : (parts x).exponent = (parts y).exponent) : shortest x = shortest y := by
  have hneighbourhood : neighbourhood (parts x) = neighbourhood (parts y) := by
    unfold neighbourhood
    rw [hm, he]
  simp only [shortest, hneighbourhood, hm]

/-! ### Signs and absolute values -/

/-- A double is zero if it denotes zero. -/
theorem beq_zero_iff (h : shortestRational? x = some q) : (x == 0.0) = true ↔ q = 0 := by
  have hfinite := isFinite_of_shortestRational? h
  rcases unpack_of_isFinite hfinite with ⟨hzero, -⟩ | ⟨hzero, s, m, e, hm, hunpack⟩
  · rw [shortestRational?_of_beq_zero hzero] at h
    exact iff_of_true hzero (Option.some.inj h).symm
  · rw [shortestRational?_eq hfinite hzero] at h
    have hpos := value_pos (digits_shortest_ne_zero (x := x)
      ((parts_of_unpack hunpack).2.1.symm ▸ hm))
    refine iff_of_false (by rw [hzero]; exact Bool.false_ne_true) ?_
    rw [← Option.some.inj h]
    split
    · exact (neg_neg_of_pos hpos).ne
    · exact hpos.ne'

/-- A double is negative if it denotes a negative number. -/
theorem lt_zero_iff_of_shortestRational? (h : shortestRational? x = some q) : x < 0.0 ↔ q < 0 := by
  have hfinite := isFinite_of_shortestRational? h
  rcases unpack_of_isFinite hfinite with ⟨hzero, -⟩ | ⟨hzero, s, m, e, hm, hunpack⟩
  · rw [(beq_zero_iff h).1 hzero]
    exact iff_of_false (not_lt_zero_of_beq hzero) (lt_irrefl 0)
  · rw [shortestRational?_eq hfinite hzero] at h
    have hpos := value_pos (digits_shortest_ne_zero (x := x)
      ((parts_of_unpack hunpack).2.1.symm ▸ hm))
    rw [lt_zero_iff_negative hfinite hzero, ← Option.some.inj h]
    split
    · next hneg => exact iff_of_true hneg (neg_neg_of_pos hpos)
    · next hneg => exact iff_of_false hneg hpos.not_gt

/-- The absolute value of a double denotes that of the number. -/
theorem shortestRational?_abs (h : shortestRational? x = some q) :
    shortestRational? x.abs = some |q| := by
  have hfinite := isFinite_of_shortestRational? h
  rcases unpack_of_isFinite hfinite with ⟨hzero, habs⟩ | ⟨hzero, s, m, e, hm, hunpack⟩
  · rw [shortestRational?_of_beq_zero habs, (beq_zero_iff h).1 hzero, abs_zero]
  · obtain ⟨-, hm', he⟩ := parts_of_unpack hunpack
    obtain ⟨hsign, hmabs, heabs⟩ := parts_of_unpack (unpack_abs hunpack)
    have hnegative : (parts x.abs).negative = false := by
      rw [← Bool.not_eq_true]
      exact fun hneg => by cases hsign.1 hneg
    have hshortest : shortest x.abs = shortest x :=
      shortest_congr (hmabs.trans hm'.symm) (heabs.trans he.symm)
    have hpos := value_pos (digits_shortest_ne_zero (x := x) (hm'.symm ▸ hm))
    have habszero : (x.abs == 0.0) = false := by
      change UnpackedFloat.beq x.abs.toModel.unpack (.zero .positive) = false
      rw [unpack_abs hunpack]
      rfl
    have habsfinite : x.abs.isFinite = true := by
      change UnpackedFloat.isFinite x.abs.toModel.unpack = true
      rw [unpack_abs hunpack]
      rfl
    rw [shortestRational?_eq habsfinite habszero, hnegative, hshortest]
    rw [shortestRational?_eq hfinite hzero] at h
    rw [← Option.some.inj h, apply_ite abs, abs_neg, ite_self, abs_of_pos hpos]
    rfl

/-- A double whose absolute value denotes a number denotes one. -/
theorem exists_of_shortestRational?_abs (h : shortestRational? x.abs = some q) :
    ∃ r, shortestRational? x = some r ∧ q = |r| := by
  obtain ⟨r, hr⟩ : ∃ r, shortestRational? x = some r := by
    have hfinite := isFinite_of_abs (isFinite_of_shortestRational? h)
    rcases hzero : x == 0.0 with - | -
    · exact ⟨_, shortestRational?_eq hfinite hzero⟩
    · exact ⟨_, shortestRational?_of_beq_zero hzero⟩
  exact ⟨r, hr, Option.some.inj (h.symm.trans (shortestRational?_abs hr))⟩

/-- What equals one denotes one. -/
theorem shortestRational?_of_beq_one (h : (x == 1.0) = true) : shortestRational? x = some 1 := by
  have hone : (1.0 : Float).toModel.unpack = .finite .positive hiddenBit (-52) (by decide) := rfl
  have hbeq : (UnpackedFloat.compare x.toModel.unpack
      (.finite .positive hiddenBit (-52) (by decide)) == some .eq) = true := hone ▸ h
  obtain ⟨hm, hx⟩ : ∃ hm, x.toModel.unpack = .finite .positive hiddenBit (-52) hm := by
    cases hu : x.toModel.unpack with
    | finite s m e hm =>
      rw [hu] at hbeq
      cases s with
      | negative => cases hbeq
      | positive =>
        have hcompare : (compare e (-52)).then (compare m hiddenBit) = .eq := by
          simpa [UnpackedFloat.compare] using hbeq
        rw [Ordering.then_eq_eq, compare_eq_iff_eq, compare_eq_iff_eq] at hcompare
        obtain ⟨rfl, rfl⟩ := hcompare
        exact ⟨hm, rfl⟩
    | zero | notANumber =>
      rw [hu] at hbeq
      cases hbeq
    | infinity s =>
      rw [hu] at hbeq
      cases s <;> cases hbeq
  have hfinite : x.isFinite = true := by
    change UnpackedFloat.isFinite x.toModel.unpack = true
    rw [hx]
    rfl
  have hzero : (x == 0.0) = false := by
    change UnpackedFloat.beq x.toModel.unpack (.zero .positive) = false
    rw [hx]
    rfl
  obtain ⟨hsign, hm, he⟩ := parts_of_unpack hx
  obtain ⟨-, hm', he'⟩ := parts_of_unpack hone
  have hnegative : (parts x).negative = false := by
    rw [← Bool.not_eq_true]
    exact fun hneg => by cases hsign.1 hneg
  have hvalue : (shortest 1.0).value = 1 := by decide +kernel
  rw [shortestRational?_eq hfinite hzero, hnegative,
    shortest_congr (hm.trans hm'.symm) (he.trans he'.symm), hvalue]
  rfl

/-! ### Numbers that are not negative -/

/-- No number, or one without a sign. -/
def IsUnsigned (u : UnpackedFloat) : Prop :=
  u = .notANumber ∨ u = .zero .positive ∨ u = .infinity .positive ∨
    ∃ m e hm, u = .finite .positive m e hm

variable {u v : UnpackedFloat}

theorem IsUnsigned.pack (h : IsUnsigned u) : IsUnsigned (Float.Model.pack u).unpack := by
  have hsign : @UnpackedFloat.unpackSign Format.binary64 (UnpackedFloat.pack _ u) = 0#1 := by
    rcases h with rfl | rfl | rfl | ⟨m, e, hm, rfl⟩
    · rfl
    · rfl
    · rfl
    · unfold UnpackedFloat.pack
      dsimp only
      split
      · exact UnpackedFloat.unpackSign_packComponents .positive _ _
      · split <;> exact UnpackedFloat.unpackSign_packComponents .positive _ _
  change IsUnsigned (UnpackedFloat.unpack Format.binary64 (UnpackedFloat.pack _ u))
  rcases unpack_cases (UnpackedFloat.pack Format.binary64 u) with h | ⟨s, hs, hcases⟩
  · exact .inl h
  · rw [hsign] at hs
    obtain rfl : s = .positive := hs
    exact .inr (hcases.elim (fun h => .inr (.inl h)) fun hcases =>
      hcases.elim .inl fun h => .inr (.inr h))

theorem isUnsigned_roundWithAccuracy (m : Nat) (e : Int) (a : UnpackedFloat.Accuracy) :
    IsUnsigned (UnpackedFloat.roundWithAccuracy Format.binary64 .positive m e a) := by
  unfold UnpackedFloat.roundWithAccuracy
  dsimp only
  split
  · exact .inr (.inl rfl)
  · exact .inr (.inr (.inr ⟨_, _, _, rfl⟩))

theorem IsUnsigned.div (hu : IsUnsigned u) (hv : IsUnsigned v) :
    IsUnsigned (UnpackedFloat.div Format.binary64 u v) := by
  rcases hu with rfl | rfl | rfl | ⟨m, e, hm, rfl⟩ <;>
    rcases hv with rfl | rfl | rfl | ⟨m', e', hm', rfl⟩
  case inr.inr.inr.inr.inr.inr => exact isUnsigned_roundWithAccuracy _ _ _
  all_goals first
    | exact .inl rfl
    | exact .inr (.inl rfl)
    | exact .inr (.inr (.inl rfl))

theorem IsUnsigned.zero_add (hu : IsUnsigned u) :
    IsUnsigned (UnpackedFloat.add Format.binary64 (.zero .positive) u) := by
  rcases hu with rfl | rfl | rfl | ⟨m, e, hm, rfl⟩
  · exact .inl rfl
  · exact .inr (.inl rfl)
  · exact .inr (.inr (.inl rfl))
  · exact .inr (.inr (.inr ⟨m, e, hm, rfl⟩))

theorem isUnsigned_ofInteger (n : Nat) : IsUnsigned (ofInteger n).toModel.unpack := by
  rcases Nat.eq_zero_or_pos n with rfl | hpos
  · exact .inr (.inl rfl)
  · rcases Nat.lt_or_ge n leastInfinite with hlt | hge
    · obtain ⟨m, e, hbinade, -⟩ := exists_inBinade_ofInteger hpos hlt
      obtain ⟨hm, hunpack⟩ := hbinade.unpack
      exact .inr (.inr (.inr ⟨m, e, hm, hunpack⟩))
    · exact .inr (.inr (.inl (unpack_ofInteger_of_ge hge)))

/-- The double of a rational number that is not negative has no sign. -/
theorem isUnsigned_zero_add_ofRational (hq : 0 ≤ q) :
    IsUnsigned (0.0 + ofRational q).toModel.unpack := by
  obtain ⟨n, hn⟩ : ∃ n : Nat, q.num = n := Int.eq_ofNat_of_zero_le (Rat.num_nonneg.2 hq)
  have hquotient : IsUnsigned (ofRational q).toModel.unpack := by
    rw [ofRational, hn]
    exact ((isUnsigned_ofInteger n).div (isUnsigned_ofInteger q.den)).pack
  exact hquotient.zero_add.pack

theorem IsUnsigned.not_lt_zero (h : IsUnsigned x.toModel.unpack) : ¬ x < 0.0 := by
  rw [lt_zero_iff]
  rcases h with hu | hu | hu | ⟨m, e, hm, hu⟩ <;> rw [hu] <;> nofun

theorem IsUnsigned.nonneg (h : IsUnsigned x.toModel.unpack) (hfinite : x.isFinite = true) :
    x ≥ 0.0 := by
  have hzero : (0.0 : Float).toModel.unpack = .zero .positive := rfl
  have hfinite : UnpackedFloat.isFinite x.toModel.unpack = true := hfinite
  refine decide_eq_true_iff.2 ?_
  change UnpackedFloat.le (0.0 : Float).toModel.unpack x.toModel.unpack = true
  rw [hzero]
  rcases h with hu | hu | hu | ⟨m, e, hm, hu⟩ <;> rw [hu] at hfinite ⊢
  · cases hfinite
  · rfl
  · cases hfinite
  · rfl

end Resolvent.Double

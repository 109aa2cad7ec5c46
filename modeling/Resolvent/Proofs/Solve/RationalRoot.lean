import Resolvent.Proofs.Solve.Cubic
import Mathlib.Data.Rat.Lemmas
import Mathlib.RingTheory.Coprime.Lemmas
import Mathlib.Tactic.LinearCombination

/-!
# Rational roots of cubic polynomials

The search for a rational root tries the fractions whose numerator divides the constant and whose
denominator divides the leading coefficient, once the coefficients are whole numbers.  It is made
where these numbers are not too large (`Cubic.SearchesRoots`), and then it misses no root
(`Cubic.rationalRootOf?_eq_none_iff`): the divisors are all there (`Cubic.mem_divisors`), and the
common denominator is one (`Rational.den_dvd_commonDenominator?`).
-/

namespace Resolvent

namespace Rational

/-- The common denominator is a multiple of each denominator. -/
theorem den_dvd_commonDenominator? {qs : List Rat} {d : Nat} (h : commonDenominator? qs = some d)
    {q : Rat} (hq : q ∈ qs) : q.den ∣ d := by
  suffices hfold : ∀ (qs : List Rat) (start : Nat),
      qs.foldlM (fun (d : Nat) q =>
        let next := d * (q.den / Nat.gcd d q.den)
        if Width.isNat128 q.den && Width.isNat128 next then some next else none) start = some d →
        start ∣ d ∧ ∀ q ∈ qs, q.den ∣ d from (hfold qs 1 h).2 q hq
  clear h hq
  intro qs
  induction qs with
  | nil =>
    intro start h
    exact ⟨dvd_of_eq (Option.some.inj h), nofun⟩
  | cons q qs ih =>
    intro start h
    rw [List.foldlM_cons] at h
    obtain ⟨next, hnext, hrest⟩ := Option.bind_eq_some_iff.1 h
    obtain ⟨hdvd, hall⟩ := ih next hrest
    dsimp only at hnext
    split at hnext
    · -- the next denominator is the least common multiple
      have hlcm : next = Nat.lcm start q.den := by
        rw [← Option.some.inj hnext, ← Nat.mul_div_assoc _ (Nat.gcd_dvd_right _ _)]
        rfl
      rw [hlcm] at hdvd
      refine ⟨(Nat.dvd_lcm_left _ _).trans hdvd, fun r hr => ?_⟩
      rcases List.mem_cons.1 hr with rfl | hr
      · exact (Nat.dvd_lcm_right _ _).trans hdvd
      · exact hall r hr
    · cases hnext

/-- A multiple of the denominator makes a whole number. -/
theorem num_mul_of_den_dvd {q : Rat} {d : Nat} (h : q.den ∣ d) :
    (((q * (d : Rat)).num : Int) : Rat) = q * d := by
  obtain ⟨n, rfl⟩ := h
  have hwhole : q * ((q.den * n : Nat) : Rat) = ((q.num * n : Int) : Rat) := by
    push_cast
    rw [← mul_assoc, Rat.mul_den_eq_num]
  rw [hwhole, Rat.num_intCast]

end Rational

namespace Cubic

/-! ### Divisors -/

/-- The divisors are complete: those above the square root are the quotients by those below. -/
theorem mem_divisors {n k : Nat} (hn : n ≠ 0) (h : k ∣ n) : k ∈ divisors n := by
  have hsmall : ∀ {j}, j ∣ n → j ≤ n.sqrt →
      j ∈ (List.range n.sqrt).filterMap fun k => if n % (k + 1) = 0 then some (k + 1) else none := by
    intro j hj hle
    have hpos : 0 < j := Nat.pos_of_dvd_of_pos hj (Nat.pos_of_ne_zero hn)
    refine List.mem_filterMap.2 ⟨j - 1, List.mem_range.2 (by omega), ?_⟩
    rw [Nat.sub_add_cancel hpos, if_pos (Nat.mod_eq_zero_of_dvd hj)]
  rw [divisors]
  refine List.mem_append.2 ?_
  rcases le_or_gt k n.sqrt with hle | hlt
  · exact .inl (hsmall h hle)
  · right
    obtain ⟨j, hj⟩ := h
    have hjpos : 0 < j := Nat.pos_of_ne_zero fun hzero => hn (by rw [hj, hzero, Nat.mul_zero])
    -- the quotient is below the square root, as the divisor is above
    have hbound : n < k * k := Nat.sqrt_lt.1 hlt
    have hjk : j < k := by
      rw [hj] at hbound
      exact Nat.lt_of_mul_lt_mul_left hbound
    have hjle : j ≤ n.sqrt := by
      rw [Nat.le_sqrt, hj]
      exact Nat.mul_le_mul_right j hjk.le
    refine List.mem_map.2 ⟨j, List.mem_filter.2 ⟨List.mem_reverse.2 ?_, ?_⟩, ?_⟩
    · exact hsmall ⟨k, by rw [hj, Nat.mul_comm]⟩ hjle
    · have hne : j * j ≠ n := by
        rw [hj]
        exact fun heq => hjk.ne (Nat.eq_of_mul_eq_mul_right hjpos heq)
      simpa using hne
    · rw [hj, Nat.mul_div_cancel _ hjpos]

/-- The fractions that are tried are all those with such a numerator and denominator. -/
theorem mem_candidates {leading constant : Nat} (hleading : leading ≠ 0) (hconstant : constant ≠ 0)
    {x : Rat} (hnum : x.num.natAbs ∣ constant) (hden : x.den ∣ leading) :
    x ∈ candidates leading constant := by
  refine List.mem_flatMap.2 ⟨_, mem_divisors hconstant hnum,
    List.mem_flatMap.2 ⟨_, mem_divisors hleading hden, ?_⟩⟩
  rw [if_pos x.reduced]
  rcases Int.natAbs_eq x.num with hsign | hsign
  · rw [← hsign, Rat.mkRat_self]
    exact List.mem_cons_self
  · rw [← hsign, Rat.mkRat_self]
    exact List.mem_cons_of_mem _ List.mem_cons_self

/-! ### Whole coefficients -/

/-- **Rational roots**: the numerator divides the constant and the denominator the leading
coefficient. -/
theorem num_dvd_and_den_dvd {a b c d : Int} {x : Rat} (h : ((a * x + b) * x + c) * x + d = 0) :
    x.num ∣ d ∧ (x.den : Int) ∣ a := by
  have hcoprime : IsCoprime x.num (x.den : Int) :=
    Int.isCoprime_iff_gcd_eq_one.2 x.reduced
  have hwhole : a * x.num ^ 3 + b * x.num ^ 2 * x.den + c * x.num * x.den ^ 2 + d * x.den ^ 3 = 0 := by
    have hden : (x.den : Rat) ≠ 0 := Nat.cast_ne_zero.2 x.den_ne_zero
    have hnum : x * x.den = x.num := Rat.mul_den_eq_num x
    have hcast : (a : Rat) * (x.num : Rat) ^ 3 + b * (x.num : Rat) ^ 2 * x.den +
        c * x.num * (x.den : Rat) ^ 2 + d * (x.den : Rat) ^ 3 = 0 := by
      rw [← hnum]
      linear_combination (x.den : Rat) ^ 3 * h
    exact_mod_cast hcast
  constructor
  · refine (hcoprime.pow_right (n := 3)).dvd_of_dvd_mul_right ?_
    exact ⟨-(a * x.num ^ 2 + b * x.num * x.den + c * x.den ^ 2), by linear_combination hwhole⟩
  · refine (hcoprime.symm.pow_right (n := 3)).dvd_of_dvd_mul_right ?_
    exact ⟨-(b * x.num ^ 2 + c * x.num * x.den + d * x.den ^ 2), by linear_combination hwhole⟩

/-! ### The search -/

/-- The rational roots of a polynomial are searched: its coefficients, multiplied by their common
denominator, fit the words, and the first and the last one are not too large. -/
def SearchesRoots (coefficients : List Rat) : Prop :=
  ∃ d : Nat, Rational.commonDenominator? coefficients = some d ∧ Width.isInt128 d = true ∧
    let scaled := coefficients.map fun q => (q * (d : Rat)).num
    let leading := (scaled.head?.getD 0).natAbs
    let constant := (scaled.getLast?.getD 0).natAbs
    scaled.all Width.isInt128 = true ∧ leading ≠ 0 ∧ constant ≠ 0 ∧
      leading ≤ maxTriedCoefficient ∧ constant ≤ maxTriedCoefficient

theorem searchesRoots_of_rationalRootOf? {qs : List Rat} {x : Rat}
    (h : rationalRootOf? qs = some x) : SearchesRoots qs := by
  rw [rationalRootOf?] at h
  split at h
  · cases h
  · next z hz =>
    obtain ⟨hz, hfits⟩ := Option.filter_eq_some_iff.1 hz
    obtain ⟨d, hd, hz⟩ := Option.bind_eq_some_iff.1 hz
    obtain rfl := Option.some.inj hz
    simp only [Int.cast_natCast] at h
    split at h
    · next hsmall => exact ⟨d, hd, hfits, hsmall⟩
    · cases h

/-- The search misses no root. -/
theorem exists_rationalRootOf? {a b c d x : Rat} (h : SearchesRoots [a, b, c, d])
    (hx : ((a * x + b) * x + c) * x + d = 0) : ∃ y, rationalRootOf? [a, b, c, d] = some y := by
  obtain ⟨D, hD, hfits, hall, hleading, hconstant, hsmall⟩ := h
  have hwhole : ∀ q ∈ [a, b, c, d], (((q * (D : Rat)).num : Int) : Rat) = q * D :=
    fun q hq => Rational.num_mul_of_den_dvd (Rational.den_dvd_commonDenominator? hD hq)
  have hroot : (((a * D).num * x + (b * D).num) * x + (c * D).num) * x + (d * D).num = 0 := by
    rw [hwhole a (by simp), hwhole b (by simp), hwhole c (by simp), hwhole d (by simp)]
    linear_combination (D : Rat) * hx
  obtain ⟨hnum, hden⟩ := num_dvd_and_den_dvd hroot
  have hmem : x ∈ candidates (a * D).num.natAbs (d * D).num.natAbs :=
    mem_candidates hleading hconstant (Int.natAbs_dvd_natAbs.2 hnum) (Int.natCast_dvd.1 hden)
  have hvalue : (valueAt [a, b, c, d] x == 0) = true := by
    rw [beq_iff_eq, valueAt]
    simp only [List.foldl_cons, List.foldl_nil]
    linear_combination hx
  refine Option.isSome_iff_exists.1 ?_
  rw [rationalRootOf?, hD, show (do let a ← some D; pure (a : Int)) = some (D : Int) from rfl,
    Option.filter_some, if_pos hfits]
  simp only [Int.cast_natCast]
  rw [if_pos ⟨hall, hleading, hconstant, hsmall⟩]
  exact List.find?_isSome.2 ⟨x, hmem, hvalue⟩

/-- No rational root is found exactly where none is searched or there is none. -/
theorem rationalRootOf?_eq_none_iff {a b c d : Rat} : rationalRootOf? [a, b, c, d] = none ↔
    ¬ (SearchesRoots [a, b, c, d] ∧ ∃ x : Rat, ((a * x + b) * x + c) * x + d = 0) := by
  constructor
  · rintro hnone ⟨hsearch, x, hx⟩
    obtain ⟨y, hy⟩ := exists_rationalRootOf? hsearch hx
    cases hnone.symm.trans hy
  · intro hnot
    rcases hfound : rationalRootOf? [a, b, c, d] with - | x
    · rfl
    · have hzero := valueAt_of_rationalRootOf? hfound
      simp only [valueAt, List.foldl_cons, List.foldl_nil] at hzero
      exact absurd ⟨searchesRoots_of_rationalRootOf? hfound, x, by linear_combination hzero⟩ hnot

end Cubic

end Resolvent

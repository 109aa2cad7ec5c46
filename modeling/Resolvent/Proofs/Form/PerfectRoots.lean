import Resolvent.Proofs.Form.Made
import Mathlib.Data.Nat.Factors

/-!
# Roots of perfect powers

The root of a perfect power is the number that was raised to the power, where trial division can see
it (`Form.positiveRoot_pow`).  The root is taken of a whole number, from which the denominator has
been scaled away, so what has to fit 128 bits is the power of the scaled number
(`PerfectPower.scaledRoot`).  Trial division uses up the primes below its limit; what it leaves is a
power of the part of the number that is made of other primes (`PerfectPower.roughPart`), and whether
the root of that is found depends on the estimate in doubles.

The invariant (`PerfectPower.Trial.Whole`) is that nothing stays under the root, and that what
remains is a power whose root is the cofactor of what is outside.
-/

namespace Resolvent

namespace PerfectPower

/-! ### Trial division of perfect powers -/

/-- The part of a number that is made of the primes that are not tried as divisors. -/
def roughPart (r : Nat) : Nat := (r.primeFactorsList.filter fun p => trialLimit ≤ p).prod

/-- The power of the number is a perfect power that extraction finds: it has at most 127 bits, and
either trial division uses it up or the root of the rest is next to its estimate. -/
structure Extractable (estimate : Nat → Nat → Nat) (r n : Nat) : Prop where
  /-- The power fits a signed word of 128 bits. -/
  fits : r ^ n < 2 ^ 127
  /-- The estimate of the root of the rest is off by one at most. -/
  near : roughPart r = 1 ∨ roughPart r ≤ estimate (roughPart r ^ n) n + 1 ∧
    estimate (roughPart r ^ n) n ≤ roughPart r + 1

/-- A prime divides out of a power as often as out of its root, times the exponent. -/
theorem exists_divideOut_pow {p s n : Nat} (hp : p.Prime) (hs : 0 < s) :
    ∃ v s' : Nat, s = p ^ v * s' ∧ divideOut p (s ^ n).log2 (s ^ n) 0 = (s' ^ n, n * v) := by
  obtain ⟨v, s', hs', hsplit⟩ := Nat.exists_eq_pow_mul_and_not_dvd hs.ne' p hp.ne_one
  refine ⟨v, s', hsplit, ?_⟩
  have hpow := divideOut_mul_pow p (s ^ n).log2 (s ^ n) 0
  have hnot := not_dvd_divideOut hp.two_le (s ^ n).log2 (s ^ n) 0 (pow_pos hs n) Nat.lt_log2_self
  generalize divideOut p (s ^ n).log2 (s ^ n) 0 = t at hpow hnot
  obtain ⟨m, c⟩ := t
  dsimp only at hpow hnot
  have hnot' : ¬ p ∣ s' ^ n := fun h => hs' (hp.dvd_of_dvd_pow h)
  have hm : m ≠ 0 := fun h => hnot (h ▸ dvd_zero p)
  have heq : m * p ^ c = s' ^ n * p ^ (n * v) := by
    rw [hpow, hsplit, pow_zero, mul_one, mul_pow, ← pow_mul, mul_comm v, mul_comm]
  have hcount : c = n * v := by
    have hfactors := congrArg (fun k => k.factorization p) heq
    have hp0 := fun k => pow_ne_zero k hp.ne_zero
    have hs0 : s' ^ n ≠ 0 := fun h => hnot' (h ▸ dvd_zero p)
    rw [Nat.factorization_mul hm (hp0 c), Nat.factorization_mul hs0 (hp0 _), Finsupp.add_apply,
      Finsupp.add_apply, Nat.factorization_eq_zero_of_not_dvd hnot,
      Nat.factorization_eq_zero_of_not_dvd hnot', hp.factorization_pow, hp.factorization_pow]
      at hfactors
    simpa using hfactors
  rw [hcount] at heq ⊢
  rw [Nat.eq_of_mul_eq_mul_right (pow_pos hp.pos _) heq]

/-- Nothing stays under the root, and what remains is a power, whose root is what is missing
outside. -/
structure Trial.Whole (index r : Nat) (t : Trial) : Prop where
  /-- Nothing is inside. -/
  inside : t.inside = 1
  /-- What remains is the power of the cofactor of what is outside. -/
  remaining : ∃ s, t.remaining = s ^ index ∧ t.outside * s = r
  /-- Only divisors that have been tried divide what is outside. -/
  lt_of_dvd_outside : ∀ p : Nat, p.Prime → p ∣ t.outside → p < t.divisor

namespace Trial

variable {index r : Nat} {t : Trial}

theorem whole_start (index r : Nat) : Whole index r ⟨r ^ index, 2, 1, 1⟩ where
  inside := rfl
  remaining := ⟨r, rfl, Nat.one_mul r⟩
  lt_of_dvd_outside := fun _ hp hdvd => absurd (Nat.dvd_one.1 hdvd) hp.ne_one

theorem Whole.step (h : t.Whole index r) (hsieved : t.Sieved index) (hindex : 2 ≤ index)
    (hlimit : t.divisor < trialLimit) : (t.step index).Whole index r := by
  obtain ⟨hgrow, -⟩ := hsieved.next_divisor hlimit rfl
  obtain ⟨hinside, ⟨s, hrem, hr⟩, hout⟩ := h
  unfold Trial.step
  dsimp only
  split
  · next hmod =>
    have hprime := hsieved.prime_divisor (Nat.dvd_of_mod_eq_zero hmod)
    have hs : 0 < s := by
      refine Nat.pos_of_ne_zero fun hzero => hsieved.remaining_pos.ne' ?_
      rw [hrem, hzero, Nat.zero_pow (by omega)]
    rw [hrem]
    obtain ⟨v, s', hsplit, hdivide⟩ := exists_divideOut_pow (n := index) hprime hs
    rw [hdivide]
    dsimp only
    -- the count is a multiple of the index, so all of it goes outside
    rw [Nat.mul_mod_right, Nat.mul_div_cancel_left v (by omega)]
    refine ⟨by simp [hinside], ⟨s', rfl, ?_⟩, fun p hp hdvd => ?_⟩
    · rw [← hr, hsplit, Nat.pow_eq, Nat.mul_assoc]
    · rcases (Nat.Prime.dvd_mul hp).1 hdvd with hdvd | hdvd
      · exact (hout p hp hdvd).trans hgrow
      · rw [(Nat.prime_dvd_prime_iff_eq hp hprime).1 (hp.dvd_of_dvd_pow hdvd)]
        exact hgrow
  · exact ⟨hinside, ⟨s, hrem, hr⟩, fun p hp hdvd => (hout p hp hdvd).trans hgrow⟩

theorem Whole.run (h : t.Whole index r) (hsieved : t.Sieved index) (hindex : 2 ≤ index)
    (fuel : Nat) : (t.run index fuel).Whole index r := by
  fun_induction Trial.run index fuel t with
  | case1 => exact h
  | case2 fuel t hcond ih =>
    exact ih (h.step hsieved hindex hcond.2) (hsieved.step hindex hcond.2)
  | case3 => exact h

end Trial

/-- The product of a number of small primes and one of other primes has the latter for its rough
part. -/
theorem roughPart_mul {t s : Nat} (ht : t ≠ 0) (hs : s ≠ 0)
    (hsmall : ∀ p : Nat, p.Prime → p ∣ t → p < trialLimit)
    (hrough : ∀ p : Nat, p.Prime → p ∣ s → trialLimit ≤ p) : roughPart (t * s) = s := by
  have hperm := (Nat.perm_primeFactorsList_mul ht hs).filter fun p => trialLimit ≤ p
  have hnil : t.primeFactorsList.filter (fun p => trialLimit ≤ p) = [] := by
    refine List.filter_eq_nil_iff.2 fun p hp => ?_
    have hp := (Nat.mem_primeFactorsList ht).1 hp
    simpa using hsmall p hp.1 hp.2
  have hall : s.primeFactorsList.filter (fun p => trialLimit ≤ p) = s.primeFactorsList := by
    refine List.filter_eq_self.2 fun p hp => ?_
    have hp := (Nat.mem_primeFactorsList hs).1 hp
    simpa using hrough p hp.1 hp.2
  rw [roughPart, hperm.prod_eq, List.filter_append, hnil, hall, List.nil_append,
    Nat.prod_primeFactorsList hs]

/-- A number of small primes only has no rough part. -/
theorem roughPart_eq_one {r : Nat} (hr : r ≠ 0)
    (hsmall : ∀ p : Nat, p.Prime → p ∣ r → p < trialLimit) : roughPart r = 1 := by
  have h := roughPart_mul hr one_ne_zero hsmall fun p hp hdvd =>
    absurd (Nat.dvd_one.1 hdvd) hp.ne_one
  rwa [mul_one] at h

/-- Powers of numbers below the limit of trial division are found, whatever the estimate. -/
theorem extractable_of_lt (estimate : Nat → Nat → Nat) {r n : Nat} (hr : r ≠ 0) (hlt : r < trialLimit)
    (hfits : r ^ n < 2 ^ 127) : Extractable estimate r n :=
  ⟨hfits, .inl (roughPart_eq_one hr fun _ _ hdvd =>
    (Nat.le_of_dvd (Nat.pos_of_ne_zero hr) hdvd).trans_lt hlt)⟩

theorem rootNear?_of_near {e s n : Nat} (hn : n ≠ 0) (hn' : n < 128) (h : s ≤ e + 1) (h' : e ≤ s + 1) :
    rootNear? e (s ^ n) n = some s := by
  have hpred : ∀ c : Nat, (decide (n < 128) && Nat.pow c n == s ^ n) = true ↔ c = s := by
    intro c
    rw [Bool.and_eq_true, beq_iff_eq, Nat.pow_eq, Nat.pow_left_inj hn]
    simp [hn']
  have hmem : s ∈ [e - 1, e, e + 1] := by
    simp only [List.mem_cons, List.not_mem_nil, or_false]
    omega
  cases hfound : rootNear? e (s ^ n) n with
  | none => exact absurd ((hpred s).2 rfl) (List.find?_eq_none.1 hfound s hmem)
  | some c =>
    have hc := rootNear?_pow hfound
    rw [Nat.pow_eq, Nat.pow_left_inj hn] at hc
    rw [hc]

/-- Trial division takes the root of a perfect power. -/
theorem factor_pow {estimate : Nat → Nat → Nat} {r n : Nat} (hr : 0 < r) (hn : 2 ≤ n) (hn' : n < 128)
    (h : Extractable estimate r n) : factor estimate (r ^ n) n = (r, 1) := by
  have hpos : 0 < r ^ n := pow_pos hr n
  have hsieved := (Trial.sieved_start hpos hn).run hn trialLimit
  have hwhole := (Trial.whole_start n r).run (Trial.sieved_start hpos hn) hn trialLimit
  have hexit := Trial.run_exit n ⟨r ^ n, 2, 1, 1⟩ trialLimit (by simp)
  unfold factor
  generalize Trial.run n trialLimit ⟨r ^ n, 2, 1, 1⟩ = t at hsieved hwhole hexit
  obtain ⟨hinside, ⟨s, hrem, hr'⟩, hout⟩ := hwhole
  have hs : s ≠ 0 := fun hzero => hr.ne' (by rw [← hr', hzero, Nat.mul_zero])
  have hrough : ∀ p : Nat, p.Prime → p ∣ s → t.divisor ≤ p := fun p hp hdvd =>
    not_lt.1 fun hlt => hsieved.not_dvd_remaining p hp hlt (hrem ▸ dvd_pow hdvd (by omega))
  dsimp only at hexit ⊢
  rw [hinside]
  split
  · next hle =>
    have hone : s = 1 := by
      rw [hrem] at hle
      by_contra hne
      have := Nat.one_lt_pow (by omega : n ≠ 0) (by omega : 1 < s)
      omega
    rw [← hr', hone, Nat.mul_one]
  · next hgt =>
    have hs1 : s ≠ 1 := fun hone => hgt (by rw [hrem, hone, Nat.one_pow])
    split
    · -- a power is at least the square of its least prime, which has not been tried
      next hlt =>
      have hmin := hrough _ (Nat.minFac_prime hs1) (Nat.minFac_dvd s)
      have hle := hmin.trans (Nat.minFac_le (by omega))
      have hsq : s * s ≤ s ^ n := by
        rw [← pow_two]
        exact Nat.pow_le_pow_right (by omega) hn
      have := Nat.mul_le_mul hle hle
      omega
    · next hge =>
      have hlast := hsieved.divisor_eq (hexit.resolve_left hge)
      have hlimit : ¬ trialLimit.Prime := by
        unfold trialLimit
        exact Nat.not_prime_of_dvd_of_lt (m := 2) (by decide) (by decide) (by decide)
      have hpart : roughPart r = s := by
        rw [← hr']
        refine roughPart_mul (fun hzero => hr.ne' (by rw [← hr', hzero, Nat.zero_mul])) hs ?_ ?_
        · intro p hp hdvd
          have := hout p hp hdvd
          exact lt_of_le_of_ne (by omega) fun heq => hlimit (heq ▸ hp)
        · intro p hp hdvd
          have := hrough p hp hdvd
          omega
      have hnear := h.near
      rw [hpart] at hnear
      obtain ⟨hlow, hhigh⟩ := hnear.resolve_left hs1
      rw [hrem, rootNear?_of_near (by omega) hn' hlow hhigh]
      dsimp only
      rw [hr']

/-- Extraction takes the root of a perfect power. -/
theorem extractWith_pow {estimate : Nat → Nat → Nat} {r n : Nat} (hr : 0 < r) (hn : 2 ≤ n)
    (hn' : n < 128) (h : Extractable estimate r n) :
    extractWith estimate ((r ^ n : Nat) : Rat) n = ((r : Rat), 1) := by
  by_cases hone : r = 1
  · simp [hone, extractWith]
  · have hlarge := Nat.one_lt_pow (by omega : n ≠ 0) (by omega : 1 < r)
    have hfits := h.fits
    have hbits : Width.isInt128 ((r ^ n : Nat) : Int) = true := by
      rw [Width.isInt128_iff]
      norm_num at hfits
      omega
    rw [extractWith, if_neg, Rat.num_natCast, Int.toNat_natCast, factor_pow hr hn hn' h]
    · simp
    · rw [Rat.den_natCast, Rat.num_natCast, hbits]
      simp only [ne_eq, not_true_eq_false, Bool.true_eq_false, or_false, false_or, not_or]
      omega

/-- The whole number whose root is taken for the root of the power of a rational number. -/
def scaledRoot (q : Rat) (n : Nat) : Nat := q.num.natAbs * q.den ^ (n - 1)

end PerfectPower

namespace Form

open PerfectPower (Extractable estimate scaledRoot)

/-- The positive root of a perfect power is rational. -/
theorem positiveRoot_pow {q : Rat} {n : Nat} (hq : 0 < q) (hn : 2 ≤ n) (hn' : n ≤ 64)
    (h : Extractable estimate (scaledRoot q n) n) : positiveRoot (q ^ n) n = ofRat q := by
  have hnum : 0 < q.num := Rat.num_pos.2 hq
  have hden : 0 < q.den := q.den_pos
  have hr : 0 < scaledRoot q n := Nat.mul_pos (by omega) (pow_pos hden _)
  have hden0 : (q.den : Rat) ≠ 0 := by exact_mod_cast hden.ne'
  have hbits : Width.isInt128 ((q ^ n).den : Int) = true := by
    have hle : q.den ≤ scaledRoot q n := by
      calc q.den = q.den ^ 1 := (pow_one _).symm
        _ ≤ q.den ^ (n - 1) := Nat.pow_le_pow_right hden (by omega)
        _ ≤ scaledRoot q n := Nat.le_mul_of_pos_left _ (by omega)
    have hlt := (Nat.pow_le_pow_left hle n).trans_lt h.fits
    rw [Rat.den_pow, Width.isInt128_iff]
    norm_num at hlt
    omega
  have hindex : Width.isInt32 n = true := by
    simp only [Width.isInt32, decide_eq_true_eq]
    omega
  have hcast : (scaledRoot q n : Rat) = q * (q.den : Rat) ^ n := by
    have hmul : q * (q.den : Rat) = q.num := Rat.mul_den_eq_num q
    rw [show n = (n - 1) + 1 by omega, pow_succ', ← mul_assoc, hmul, scaledRoot]
    push_cast
    rw [← Int.cast_natCast, Int.natAbs_of_nonneg hnum.le]
  have hscaled : q ^ n * Rat.pow ((q ^ n).den : Rat) n = ((scaledRoot q n ^ n : Nat) : Rat) := by
    change q ^ n * ((q ^ n).den : Rat) ^ n = _
    rw [Rat.den_pow]
    push_cast
    rw [hcast, mul_pow]
  rw [positiveRoot, hbits, hindex, if_pos (by decide), hscaled, PerfectPower.extract,
    PerfectPower.extractWith_pow hr hn (by omega) h]
  dsimp only
  rw [if_pos rfl, hcast, Rat.den_pow]
  push_cast
  rw [mul_div_cancel_right₀ q (pow_ne_zero n hden0)]

/-- The root of a perfect power is rational, in every format. -/
theorem root_pow {p : Preferences} {q : Rat} {n : Nat} (hq : 0 ≤ q) (hn : 2 ≤ n) (hn' : n ≤ 64)
    (h : Extractable estimate (scaledRoot q n) n) : root p (ofRat (q ^ n)) n = .ok (ofRat q) := by
  rcases hq.eq_or_lt with rfl | hpos
  · rw [zero_pow (by omega), ofRat_zero, root_zero]
  · rw [root_ofRat_of_pos (pow_pos hpos n) hn, positiveRoot_pow hpos hn hn' h]

end Form

end Resolvent

import Resolvent.Proofs.Form.PerfectPower

/-!
# Extraction of perfect powers in words

`PerfectPower.extract?` computes with words of 128 bits and has no result where a number does not
fit.  It always has one, and that is the one of `PerfectPower.extractWith`
(`PerfectPower.extract?_eq`), as long as the estimates of roots are below `2 ^ 127`.  The reason is
the invariant of trial division again: each number that it holds is at most the number
`outside ^ index * inside * remaining` that it takes apart, before and after a step.

What stays under the root of a whole number below `2 ^ 40` has no power in it: a prime factor that
is not tried is from `2 ^ 20` on, and its square is too large.
-/

namespace Resolvent.PerfectPower

theorem word?_of_lt {n : Nat} (h : n < 2 ^ 128) : word? n = some n := by
  have hword : Width.isNat128 n = true := by
    rw [Width.isNat128, decide_eq_true_eq]
    omega
  rw [word?, if_pos hword]

theorem timesPower?_of_lt {a p k : Nat} (ha : 0 < a) (h : a * p ^ k < 2 ^ 128) :
    timesPower? a p k = some (a * Nat.pow p k) := by
  have hpow : Nat.pow p k < 2 ^ 128 := lt_of_le_of_lt (Nat.le_mul_of_pos_left _ ha) h
  simp only [timesPower?, word?_of_lt hpow, Option.bind_eq_bind, Option.bind_some]
  exact word?_of_lt h

/-! ### Trial division -/

theorem divideOut?_eq {p : Nat} (hp : 2 ≤ p) (fuel n count : Nat) (hn : 0 < n)
    (hfuel : n < 2 ^ (fuel + 1)) :
    divideOut? p (fuel + 1) n count = some (divideOut p fuel n count) := by
  fun_induction divideOut p fuel n count with
  | case1 n count =>
    have hone : n = 1 := by omega
    rw [divideOut?, if_neg (by rw [hone, Nat.mod_eq_of_lt (by omega)]; omega)]
  | case2 fuel n count hmod ih =>
    have hle := Nat.le_of_dvd hn (Nat.dvd_of_mod_eq_zero hmod)
    rw [divideOut?, if_pos hmod]
    exact ih (Nat.div_pos hle (by omega)) (div_lt_two_pow hp hfuel)
  | case3 fuel n count hmod => rw [divideOut?, if_neg hmod]

theorem divideOut_of_mod_ne {p n : Nat} (hmod : n % p ≠ 0) (fuel count : Nat) :
    divideOut p fuel n count = (n, count) := by
  cases fuel with
  | zero => rfl
  | succ => exact if_neg hmod

namespace Trial

variable {index : Nat} {t : Trial}

/-- The products of the state lie between one and the number that trial division takes apart. -/
theorem bounds_of_product (hindex : index ≠ 0) (hpos : 0 < t.product index) :
    (0 < t.outside ∧ t.outside ≤ t.product index) ∧ 0 < t.inside ∧ t.inside ≤ t.product index :=
  have houtside := bounds_of_pow_mul_eq (b := t.inside * t.remaining) hindex hpos
    (Nat.mul_assoc _ _ _).symm
  have hinside := bounds_of_pow_mul_eq (a := t.inside) (n := 1)
    (b := t.outside ^ index * t.remaining) Nat.one_ne_zero hpos (by rw [product]; ring)
  ⟨houtside.1, hinside.1⟩

/-- A step as one record, also where the divisor does not divide what remains. -/
theorem step_eq (index : Nat) (t : Trial) :
    t.step index =
      { remaining := (divideOut t.divisor t.remaining.log2 t.remaining 0).1
        divisor := if t.divisor = 2 then 3 else t.divisor + 2
        outside := t.outside * Nat.pow t.divisor
          ((divideOut t.divisor t.remaining.log2 t.remaining 0).2 / index)
        inside := t.inside * Nat.pow t.divisor
          ((divideOut t.divisor t.remaining.log2 t.remaining 0).2 % index) } := by
  unfold step
  dsimp only
  split
  · rfl
  · next hmod => simp [divideOut_of_mod_ne hmod]

theorem Sieved.word?_square (h : t.Sieved index) :
    word? (t.divisor * t.divisor) = some (t.divisor * t.divisor) := by
  have := Nat.mul_le_mul h.divisor_le h.divisor_le
  unfold trialLimit at this
  exact word?_of_lt (by omega)

theorem Sieved.step?_eq (h : t.Sieved index) (hindex : 2 ≤ index) (hlimit : t.divisor < trialLimit)
    (hpos : 0 < t.product index) (hlt : t.product index < 2 ^ 128) :
    t.step? index = some (t.step index) := by
  have hdivide := divideOut?_eq h.two_le_divisor t.remaining.log2 t.remaining 0 h.remaining_pos
    Nat.lt_log2_self
  obtain ⟨⟨houtpos, -⟩, hinpos, -⟩ := bounds_of_product (by omega) hpos
  -- the products are those of the next state, whose number is the same
  have hnext := product_step index t
  rw [← hnext] at hpos hlt
  obtain ⟨⟨-, hout⟩, -, hin⟩ := bounds_of_product (by omega) hpos
  rw [step_eq] at hout hin hlt hnext ⊢
  generalize divideOut t.divisor t.remaining.log2 t.remaining 0 = r at *
  obtain ⟨m, count⟩ := r
  have hdivisor : word? (t.divisor + if t.divisor = 2 then 1 else 2) =
      some (if t.divisor = 2 then 3 else t.divisor + 2) := by
    unfold trialLimit at hlimit
    rw [word?_of_lt (by split <;> omega)]
    split <;> simp [*]
  simp only [step?, hdivide, hdivisor, Option.bind_eq_bind, Option.bind_some, Option.pure_def]
  split
  · rw [timesPower?_of_lt houtpos (lt_of_le_of_lt hout hlt),
      timesPower?_of_lt hinpos (lt_of_le_of_lt hin hlt)]
    simp
  · next hcount =>
    -- the products are with the zeroth power
    obtain rfl : count = 0 := by omega
    simp

/-- Trial division stays within words of 128 bits. -/
theorem Sieved.run?_eq (h : t.Sieved index) (hindex : 2 ≤ index) (hpos : 0 < t.product index)
    (hlt : t.product index < 2 ^ 128) (fuel : Nat) (hfuel : trialLimit ≤ t.divisor + fuel) :
    Trial.run? index (fuel + 1) t = some (t.run index fuel) := by
  fun_induction Trial.run index fuel t with
  | case1 t =>
    rw [run?, h.word?_square]
    simp [show ¬ t.divisor < trialLimit from Nat.not_lt.2 hfuel]
  | case2 fuel t hcond ih =>
    obtain ⟨hgrow, -⟩ := h.next_divisor hcond.2 rfl
    have hnext := product_step index t
    rw [run?, h.word?_square, h.step?_eq hindex hcond.2 hpos hlt]
    simp only [Option.bind_eq_bind, Option.bind_some, if_pos hcond]
    refine ih (h.step hindex hcond.2) (hnext ▸ hpos) (hnext ▸ hlt) ?_
    rw [step_eq]
    dsimp only
    omega
  | case3 fuel t hcond =>
    rw [run?, h.word?_square]
    simp [hcond]

end Trial

/-! ### Factors -/

/-- The search for a root among words is the search with a bound on the index. -/
theorem rootAmong?_eq {e v : Nat} (he : e < 2 ^ 127) (hone : 1 < v) (hv : v < 2 ^ 128) (n : Nat) :
    rootAmong? e v n = some (rootNear? e v n) := by
  have hsame : ∀ c, (word? (Nat.pow c n) == some v) =
      (decide (n < 128) && Nat.pow c n == v) := by
    intro c
    rw [Bool.eq_iff_iff]
    simp only [beq_iff_eq, Bool.and_eq_true, decide_eq_true_eq]
    constructor
    · intro h
      have hpow : c ^ n = v := by
        simp only [word?, Option.ite_none_right_eq_some, Option.some.injEq] at h
        exact h.2
      refine ⟨?_, hpow⟩
      -- powers of zero and one are no such value, and a larger base has 128 factors of two
      by_contra hlarge
      have hbase : 2 ≤ c := by
        by_contra hsmall
        obtain rfl | rfl : c = 0 ∨ c = 1 := by omega
        · rw [Nat.zero_pow (by omega)] at hpow
          omega
        · rw [Nat.one_pow] at hpow
          omega
      have hle : 2 ^ 128 ≤ c ^ n :=
        (Nat.pow_le_pow_right (by omega) (not_lt.1 hlarge)).trans (Nat.pow_le_pow_left hbase n)
      omega
    · rintro ⟨-, hpow⟩
      rw [hpow, word?_of_lt hv]
  simp only [rootAmong?, rootNear?, word?_of_lt (by omega : e + 1 < 2 ^ 128), hsame,
    Option.bind_eq_bind, Option.bind_some, Option.pure_def]

/-- Factoring a positive number below `2 ^ 127` stays within words of 128 bits. -/
theorem factor?_eq {estimate : Nat → Nat → Nat} (hestimate : ∀ n i, estimate n i < 2 ^ 127)
    {value index : Nat} (hvalue : 0 < value) (hlt : value < 2 ^ 127) (hindex : 2 ≤ index) :
    factor? estimate value index = some (factor estimate value index) := by
  have hstart := Trial.sieved_start hvalue hindex
  have hproduct : Trial.product index ⟨value, 2, 1, 1⟩ = value := by simp [Trial.product]
  have hrun := hstart.run?_eq hindex (hproduct.symm ▸ hvalue) (hproduct.symm ▸ by omega)
    trialLimit (by simp)
  have hend := hstart.run hindex trialLimit
  have hsame := Trial.product_run index trialLimit ⟨value, 2, 1, 1⟩
  -- what is multiplied at the end are the two factors
  obtain ⟨⟨-, hout⟩, -, hin⟩ :=
    bounds_of_pow_mul_eq (by omega) hvalue (factor_pow_mul estimate hvalue index)
  rw [hproduct] at hsame
  unfold factor? factor at *
  rw [hrun]
  generalize Trial.run index trialLimit ⟨value, 2, 1, 1⟩ = t at *
  obtain ⟨-, -, hrem⟩ := bounds_of_pow_mul_eq (a := t.outside ^ index * t.inside) (n := 1)
    Nat.one_ne_zero hvalue (by rw [← hsame, Trial.product, Nat.pow_one])
  simp only [hend.word?_square, Option.bind_eq_bind, Option.bind_some, Option.pure_def] at hout hin ⊢
  split
  · rfl
  · next hgt =>
    rw [if_neg hgt] at hout hin
    split
    · next hprime =>
      rw [if_pos hprime] at hin
      rw [word?_of_lt (lt_of_le_of_lt hin (by omega)), Option.bind_some]
    · next hge =>
      rw [if_neg hge] at hout hin
      rw [rootAmong?_eq (hestimate _ _) (by omega) (by omega), Option.bind_some]
      cases hroot : rootNear? (estimate t.remaining index) t.remaining index with
      | some root =>
        rw [hroot] at hout
        simp only [word?_of_lt (lt_of_le_of_lt hout (by omega)), Option.bind_some]
      | none =>
        rw [hroot] at hin
        simp only [word?_of_lt (lt_of_le_of_lt hin (by omega)), Option.bind_some]

/-- No power stays under the root of a number below `2 ^ 40`: a base without a small prime factor
is from `2 ^ 20` on. -/
theorem not_pow_dvd_factor_inside_of_lt (estimate : Nat → Nat → Nat) {value index : Nat}
    (hvalue : 0 < value) (hlt : value < 2 ^ 40) (hindex : 2 ≤ index) {k : Nat} (hk : 1 < k) :
    ¬ k ^ index ∣ (factor estimate value index).2 := by
  intro hdvd
  have hprime := Nat.minFac_prime (by omega : k ≠ 1)
  have hmin : k.minFac ^ index ∣ (factor estimate value index).2 :=
    Nat.dvd_trans (pow_dvd_pow_of_dvd (Nat.minFac_dvd k) _) hdvd
  rcases Nat.lt_or_ge k.minFac trialLimit with hsmall | hlarge
  · exact not_pow_dvd_factor_inside estimate hvalue hindex hprime hsmall hmin
  · obtain ⟨-, hpos, hle⟩ :=
      bounds_of_pow_mul_eq (by omega) hvalue (factor_pow_mul estimate hvalue index)
    have hbound : 2 ^ 40 ≤ k.minFac ^ index := calc
      2 ^ 40 = trialLimit ^ 2 := by decide
      _ ≤ k.minFac ^ 2 := Nat.pow_le_pow_left hlarge 2
      _ ≤ k.minFac ^ index := Nat.pow_le_pow_right hprime.pos hindex
    have := Nat.le_of_dvd hpos hmin
    omega

/-! ### Extraction -/

/-- Extraction from any number stays within words of 128 bits. -/
theorem extract?_eq {estimate : Nat → Nat → Nat} (hestimate : ∀ n i, estimate n i < 2 ^ 127)
    (value : Rat) (index : Nat) :
    extract? estimate value index = some (extractWith estimate value index) := by
  unfold extract? extractWith
  split
  · rfl
  · next hwhole =>
    simp only [ne_eq, not_or, Decidable.not_not, not_lt, Bool.not_eq_false] at hwhole
    obtain ⟨-, hnum, hindex, hword⟩ := hwhole
    have hlt : value.num.toNat < 2 ^ 127 := by
      have := (Width.isInt128_iff.1 hword).2
      omega
    have hpos : 0 < value.num.toNat := by omega
    obtain ⟨⟨-, hout⟩, -, hin⟩ :=
      bounds_of_pow_mul_eq (by omega) hpos (factor_pow_mul estimate hpos index)
    rw [factor?_eq hestimate hpos hlt hindex]
    generalize factor estimate value.num.toNat index = r at hout hin
    obtain ⟨outside, inside⟩ := r
    have hfit : ∀ n : Nat, n ≤ value.num.toNat → Width.isInt128 n = true := fun n hn =>
      Width.isInt128_iff.2 ⟨by omega, by omega⟩
    simp [hfit outside hout, hfit inside hin]

/-- The number is the power of what is taken out times what stays, also where nothing is taken out
of a number that is not positive. -/
theorem extractWith_pow_mul (estimate : Nat → Nat → Nat) (value : Rat) (index : Nat) :
    (extractWith estimate value index).1 ^ index * (extractWith estimate value index).2 = value := by
  rcases lt_or_ge 0 value with hpos | hneg
  · exact (extractWith_factorization estimate hpos index).1
  · have hnum : value.num < 2 := lt_of_le_of_lt (Rat.num_nonpos.2 hneg) (by decide)
    rw [extractWith, if_pos (.inr (.inl hnum))]
    simp

/-- What is taken out is a whole number. -/
theorem one_le_extractWith (estimate : Nat → Nat → Nat) (value : Rat) (index : Nat) :
    1 ≤ (extractWith estimate value index).1 := by
  unfold extractWith
  split
  · exact le_refl _
  · next hwhole =>
    have hpos : 0 < value.num.toNat := by omega
    obtain ⟨⟨hout, -⟩, -⟩ :=
      bounds_of_pow_mul_eq (by omega) hpos (factor_pow_mul estimate hpos index)
    exact Nat.one_le_cast.2 hout

/-- What stays of a whole number below `2 ^ 40` is a whole number without a power in it. -/
theorem exists_powerFree_extractWith (estimate : Nat → Nat → Nat) {n index : Nat} (hn : 0 < n)
    (hlt : n < 2 ^ 40) (hindex : 2 ≤ index) :
    ∃ w : Nat, (extractWith estimate n index).2 = w ∧ ∀ k : Nat, 1 < k → ¬ k ^ index ∣ w := by
  rcases Nat.lt_or_ge n 2 with hone | htwo
  · refine ⟨n, ?_, fun k hk hdvd => ?_⟩
    · rw [extractWith, if_pos (.inr (.inl (by simpa using hone)))]
    · have hle := Nat.le_of_dvd hn hdvd
      have := Nat.one_lt_pow (by omega : index ≠ 0) hk
      omega
  · refine ⟨(factor estimate n index).2, ?_, fun k hk =>
      not_pow_dvd_factor_inside_of_lt estimate hn hlt hindex hk⟩
    have hword : Width.isInt128 n = true := Width.isInt128_iff.2 ⟨by omega, by omega⟩
    rw [extractWith, Rat.den_natCast, Rat.num_natCast, hword, if_neg, Int.toNat_natCast]
    rintro (h | h | h | h)
    · exact h rfl
    · omega
    · omega
    · cases h

/-- **Extraction is a factorisation.**  Whatever numbers below `2 ^ 127` the roots are estimated by,
no word of 128 bits overflows, the number is the power of what is taken out times what stays, what
is taken out is at least one, and nothing more comes out of what stays.  What stays of a whole
number below `2 ^ 40` has no power in it. -/
theorem extract?_exact {estimate : Nat → Nat → Nat} (hestimate : ∀ n i, estimate n i < 2 ^ 127)
    (value : Rat) (index : Nat) :
    ∃ t u : Rat, extractWith estimate value index = (t, u) ∧
      extract? estimate value index = some (t, u) ∧
      t ^ index * u = value ∧ 1 ≤ t ∧
      (∀ n : Nat, value = n → 1 ≤ n → n < 2 ^ 40 → 2 ≤ index →
        ∃ w : Nat, u = w ∧ ∀ k : Nat, 1 < k → ¬ k ^ index ∣ w) ∧
      extract? estimate u index = some (1, u) := by
  refine ⟨(extractWith estimate value index).1, (extractWith estimate value index).2, rfl,
    extract?_eq hestimate value index, extractWith_pow_mul estimate value index,
    one_le_extractWith estimate value index, ?_, ?_⟩
  · rintro n rfl hn hlt hindex
    exact exists_powerFree_extractWith estimate hn hlt hindex
  · rw [extract?_eq hestimate, extractWith_extractWith]

theorem estimate_lt (value index : Nat) : estimate value index < 2 ^ 127 :=
  lt_trans (UInt64.toNat_lt _) (by decide)

/-- The square root of seventy-two is six times that of two. -/
theorem extract?_seventy_two :
    (∀ n i, estimate n i < 2 ^ 127) ∧ extract? estimate 72 2 = some (6, 2) ∧
      (6 : Rat) ^ 2 * 2 = 72 ∧ extract? estimate 2 2 = some (1, 2) ∧
      ∃ w : Nat, (2 : Rat) = w ∧ ∀ k : Nat, 1 < k → ¬ k ^ 2 ∣ w := by
  have hvalue : extractWith estimate 72 2 = (6, 2) := by decide +kernel
  obtain ⟨t, u, heq, hwords, hpow, -, hfree, hagain⟩ := extract?_exact estimate_lt 72 2
  obtain ⟨rfl, rfl⟩ := Prod.mk.injEq .. ▸ hvalue.symm.trans heq
  exact ⟨estimate_lt, hwords, hpow, hagain, hfree 72 rfl (by decide) (by decide) (le_refl 2)⟩

end Resolvent.PerfectPower

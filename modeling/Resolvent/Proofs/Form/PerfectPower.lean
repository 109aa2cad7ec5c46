import Resolvent.Form.PerfectPower
import Mathlib.Tactic.Positivity.Basic
import Mathlib.Tactic.Ring
import Mathlib.Algebra.Order.Field.Rat
import Mathlib.Data.Rat.Cast.Order
import Mathlib.Data.Nat.Prime.Basic

/-!
# Extraction of perfect powers

What `PerfectPower.extractWith` takes out of a positive number and what it leaves under the root are
positive, and the number is the power of the one times the other
(`PerfectPower.extractWith_factorization`).  The invariant of trial division is that
`outside ^ index * inside * remaining` is the number that it began with.

Nothing more comes out of what stays (`PerfectPower.extractWith_extractWith`), whatever the estimate
of roots is worth.  Here the invariant is `PerfectPower.Trial.Sieved`: the primes below the divisor
are used up.  A second extraction therefore ends with the same remainder as the first, and asks
the same question about it.
-/

namespace Resolvent.PerfectPower

theorem divideOut_mul_pow (p fuel n count : Nat) :
    (divideOut p fuel n count).1 * p ^ (divideOut p fuel n count).2 = n * p ^ count := by
  fun_induction divideOut p fuel n count with
  | case1 => rfl
  | case2 fuel n count hdvd ih =>
    rw [ih, Nat.pow_succ, Nat.mul_comm (p ^ count), ← Nat.mul_assoc,
      Nat.div_mul_cancel (Nat.dvd_of_mod_eq_zero hdvd)]
  | case3 => rfl

/-- The number that trial division has taken apart. -/
def Trial.product (index : Nat) (t : Trial) : Nat := t.outside ^ index * t.inside * t.remaining

theorem Trial.product_step (index : Nat) (t : Trial) :
    (t.step index).product index = t.product index := by
  unfold step
  dsimp only
  split
  · have hpow := divideOut_mul_pow t.divisor t.remaining.log2 t.remaining 0
    generalize divideOut t.divisor t.remaining.log2 t.remaining 0 = r at hpow
    obtain ⟨m, c⟩ := r
    -- of `c` factors, whole multiples of the index go outside
    have hsplit : t.divisor ^ c =
        (t.divisor ^ (c / index)) ^ index * t.divisor ^ (c % index) := by
      rw [← Nat.pow_mul, ← Nat.pow_add, Nat.mul_comm, Nat.div_add_mod]
    simp only [Nat.pow_zero, Nat.mul_one] at hpow
    simp only [product, Nat.pow_eq, Nat.mul_pow, ← hpow, hsplit]
    ring
  · rfl

theorem Trial.product_run (index fuel : Nat) (t : Trial) :
    (run index fuel t).product index = t.product index := by
  fun_induction run index fuel t with
  | case1 => rfl
  | case2 fuel t _ ih => rw [ih, product_step]
  | case3 => rfl

theorem factor_pow_mul (estimate : Nat → Nat → Nat) {value : Nat} (h : 0 < value) (index : Nat) :
    (factor estimate value index).1 ^ index * (factor estimate value index).2 = value := by
  have hrun := Trial.product_run index trialLimit ⟨value, 2, 1, 1⟩
  unfold factor
  generalize Trial.run index trialLimit ⟨value, 2, 1, 1⟩ = t at hrun
  simp only [Trial.product, Nat.one_pow, Nat.one_mul] at hrun
  have hpos : 0 < t.remaining := by
    by_contra hzero
    rw [Nat.eq_zero_of_not_pos hzero, Nat.mul_zero] at hrun
    omega
  dsimp only
  split
  · next hle =>
    have hone : t.remaining = 1 := by omega
    rw [← hrun, hone, Nat.mul_one]
  · split
    · rw [← hrun, Nat.mul_assoc]
    · split
      · next root hroot =>
        have hpow : root ^ index = t.remaining := rootNear?_pow hroot
        rw [← hrun, ← hpow, Nat.mul_pow]
        ring
      · rw [← hrun, Nat.mul_assoc]

/-- The two factors of `a ^ n * b` lie between one and the number. -/
theorem bounds_of_pow_mul_eq {a b n v : Nat} (hn : n ≠ 0) (hv : 0 < v) (h : a ^ n * b = v) :
    (0 < a ∧ a ≤ v) ∧ 0 < b ∧ b ≤ v := by
  subst h
  have hb : 0 < b := Nat.pos_of_mul_pos_left hv
  have ha : 0 < a ^ n := Nat.pos_of_mul_pos_right hv
  refine ⟨⟨Nat.pos_of_ne_zero fun hzero => ?_, ?_⟩, hb, Nat.le_mul_of_pos_left _ ha⟩
  · rw [hzero, Nat.zero_pow (by omega)] at ha
    omega
  · exact (Nat.le_self_pow hn a).trans (Nat.le_mul_of_pos_right _ hb)

/-- The number is the power of what is taken out times what stays, and both are positive. -/
theorem extractWith_factorization (estimate : Nat → Nat → Nat) {value : Rat} (h : 0 < value)
    (index : Nat) :
    (extractWith estimate value index).1 ^ index * (extractWith estimate value index).2 = value ∧
      0 < (extractWith estimate value index).1 ∧ 0 < (extractWith estimate value index).2 := by
  unfold extractWith
  split
  · exact ⟨by simp, by simp, h⟩
  · next hwhole =>
    simp only [ne_eq, not_or, Decidable.not_not, not_lt] at hwhole
    obtain ⟨hden, hnum, hindex, -⟩ := hwhole
    have hnat : 0 < value.num.toNat := by omega
    have hval : ((value.num.toNat : Nat) : Rat) = value := by
      have hcast : ((value.num.toNat : Nat) : Int) = value.num := Int.toNat_of_nonneg (by omega)
      calc ((value.num.toNat : Nat) : Rat) = ((value.num.toNat : Int) : Rat) := by norm_cast
        _ = value := by rw [hcast]; exact Rat.den_eq_one_iff value |>.1 hden
    have hpow := factor_pow_mul estimate hnat index
    obtain ⟨⟨ht, -⟩, hu, -⟩ := bounds_of_pow_mul_eq (by omega) hnat hpow
    generalize factor estimate value.num.toNat index = r at hpow ht hu
    obtain ⟨t, u⟩ := r
    refine ⟨?_, Nat.cast_pos.2 ht, Nat.cast_pos.2 hu⟩
    rw [← hval]
    change ((t : Rat)) ^ index * (u : Rat) = _
    exact_mod_cast hpow

/-! ### What stays under the root -/

/-- What trial division has established: the primes below the divisor do not divide what remains,
only they divide what stays inside, and none does so `index` times. -/
structure Trial.Sieved (index : Nat) (t : Trial) : Prop where
  /-- The divisors are two and the odd numbers. -/
  divisor_odd : t.divisor = 2 ∨ t.divisor % 2 = 1 ∧ 3 ≤ t.divisor
  /-- The divisors end at the first odd number from the limit on. -/
  divisor_le : t.divisor ≤ trialLimit + 1
  /-- Something remains. -/
  remaining_pos : 0 < t.remaining
  /-- Small primes do not divide what remains. -/
  not_dvd_remaining : ∀ p : Nat, p.Prime → p < t.divisor → ¬ p ∣ t.remaining
  /-- Only small primes divide what stays inside. -/
  lt_of_dvd_inside : ∀ p : Nat, p.Prime → p ∣ t.inside → p < t.divisor
  /-- No prime divides what stays inside as often as the index says. -/
  not_pow_dvd_inside : ∀ p : Nat, p.Prime → ¬ p ^ index ∣ t.inside

/-- A division by two or more takes one power of two away. -/
theorem div_lt_two_pow {p n k : Nat} (hp : 2 ≤ p) (h : n < 2 ^ (k + 1)) : n / p < 2 ^ k :=
  calc n / p ≤ n / 2 := Nat.div_le_div_left hp (by omega)
    _ < 2 ^ k := by
      rw [Nat.div_lt_iff_lt_mul (by omega), ← Nat.pow_succ]
      exact h

theorem not_dvd_divideOut {p : Nat} (hp : 2 ≤ p) (fuel n count : Nat) (hn : 0 < n)
    (hfuel : n < 2 ^ (fuel + 1)) : ¬ p ∣ (divideOut p fuel n count).1 := by
  fun_induction divideOut p fuel n count with
  | case1 n count =>
    intro hdvd
    have hle := Nat.le_of_dvd hn hdvd
    omega
  | case2 fuel n count hdvd ih =>
    have hle := Nat.le_of_dvd hn (Nat.dvd_of_mod_eq_zero hdvd)
    exact ih (Nat.div_pos hle (by omega)) (div_lt_two_pow hp hfuel)
  | case3 fuel n count hdvd => exact fun h => hdvd (Nat.mod_eq_zero_of_dvd h)

theorem divideOut_dvd (p fuel n count : Nat) : (divideOut p fuel n count).1 ∣ n := by
  fun_induction divideOut p fuel n count with
  | case1 => exact Nat.dvd_refl _
  | case2 fuel n count hdvd ih =>
    exact Nat.dvd_trans ih (Nat.div_dvd_of_dvd (Nat.dvd_of_mod_eq_zero hdvd))
  | case3 => exact Nat.dvd_refl _

namespace Trial

variable {index : Nat} {t : Trial}

theorem Sieved.two_le_divisor (h : t.Sieved index) : 2 ≤ t.divisor := by
  have := h.divisor_odd
  omega

/-- A divisor that divides what remains is prime. -/
theorem Sieved.prime_divisor (h : t.Sieved index) (hdvd : t.divisor ∣ t.remaining) :
    t.divisor.Prime := by
  have hne : t.divisor ≠ 1 := by
    have := h.two_le_divisor
    omega
  have hmin := Nat.minFac_prime hne
  rcases Nat.lt_or_eq_of_le (Nat.minFac_le (by have := h.two_le_divisor; omega :
    0 < t.divisor)) with hlt | heq
  · exact absurd (Nat.dvd_trans (Nat.minFac_dvd _) hdvd) (h.not_dvd_remaining _ hmin hlt)
  · rwa [heq] at hmin

/-- The next divisor is odd and within the limit, and no prime lies between. -/
theorem Sieved.next_divisor (h : t.Sieved index) (hlimit : t.divisor < trialLimit) {d : Nat}
    (hd : d = if t.divisor = 2 then 3 else t.divisor + 2) :
    t.divisor < d ∧ (d % 2 = 1 ∧ 3 ≤ d) ∧ d ≤ trialLimit + 1 ∧
      ∀ p : Nat, p.Prime → p < d → p < t.divisor ∨ p = t.divisor := by
  have hodd := h.divisor_odd
  unfold trialLimit at hlimit ⊢
  split at hd
  · exact ⟨by omega, by omega, by omega, fun p _ hlt => by omega⟩
  · refine ⟨by omega, by omega, by omega, fun p hp hlt => ?_⟩
    -- the number that is skipped is even
    rcases hp.eq_two_or_odd with rfl | hpodd <;> omega

theorem Sieved.step (h : t.Sieved index) (hindex : 2 ≤ index) (hlimit : t.divisor < trialLimit) :
    (t.step index).Sieved index := by
  have htwo := h.two_le_divisor
  obtain ⟨hgrow, hodd, hle, hnext⟩ := h.next_divisor hlimit rfl
  unfold Trial.step
  dsimp only
  split
  · next hmod =>
    have hdvd := Nat.dvd_of_mod_eq_zero hmod
    have hprime := h.prime_divisor hdvd
    have hnot := not_dvd_divideOut htwo t.remaining.log2 t.remaining 0 h.remaining_pos
      Nat.lt_log2_self
    have hquot := divideOut_dvd t.divisor t.remaining.log2 t.remaining 0
    generalize divideOut t.divisor t.remaining.log2 t.remaining 0 = r at hnot hquot
    obtain ⟨m, c⟩ := r
    refine ⟨.inr hodd, hle, Nat.pos_of_dvd_of_pos hquot h.remaining_pos, ?_, ?_, ?_⟩
    · intro p hp hlt
      rcases hnext p hp hlt with hp' | rfl
      · exact fun hm => h.not_dvd_remaining p hp hp' (Nat.dvd_trans hm hquot)
      · exact hnot
    · intro p hp hin
      rcases (Nat.Prime.dvd_mul hp).1 hin with hin | hin
      · exact lt_trans (h.lt_of_dvd_inside p hp hin) hgrow
      · rw [(Nat.prime_dvd_prime_iff_eq hp hprime).1 (hp.dvd_of_dvd_pow hin)]
        exact hgrow
    · -- only the divisor itself gains factors, and it had none before
      intro p hp hin
      by_cases heq : p = t.divisor
      · subst heq
        have hfresh : ¬ t.divisor ∣ t.inside :=
          fun hin => absurd (h.lt_of_dvd_inside _ hp hin) (lt_irrefl _)
        have hcop : Nat.Coprime (t.divisor ^ index) t.inside :=
          Nat.Coprime.pow_left _ ((Nat.Prime.coprime_iff_not_dvd hp).2 hfresh)
        have hle := (Nat.pow_dvd_pow_iff_le_right hp.one_lt).1 (hcop.dvd_of_dvd_mul_left hin)
        exact absurd hle (Nat.not_le.2 (Nat.mod_lt c (by omega)))
      · have hcop : Nat.Coprime (p ^ index) (Nat.pow t.divisor (c % index)) :=
          Nat.Coprime.pow _ _ ((Nat.coprime_primes hp hprime).2 heq)
        exact h.not_pow_dvd_inside p hp (hcop.dvd_of_dvd_mul_right hin)
  · next hmod =>
    refine ⟨.inr hodd, hle, h.remaining_pos, ?_, ?_, h.not_pow_dvd_inside⟩
    · intro p hp hlt
      rcases hnext p hp hlt with hp' | rfl
      · exact h.not_dvd_remaining p hp hp'
      · exact fun hdvd => hmod (Nat.mod_eq_zero_of_dvd hdvd)
    · exact fun p hp hin => lt_trans (h.lt_of_dvd_inside p hp hin) hgrow

/-- What remains has no prime in common with what stays inside at a smaller divisor. -/
theorem Sieved.coprime (h : t.Sieved index) {u : Trial} (hu : u.Sieved index)
    (hle : u.divisor ≤ t.divisor) : Nat.Coprime t.remaining u.inside :=
  Nat.coprime_of_dvd fun p hp hrem hin =>
    h.not_dvd_remaining p hp ((hu.lt_of_dvd_inside p hp hin).trans_le hle) hrem

theorem Sieved.run (h : t.Sieved index) (hindex : 2 ≤ index) (fuel : Nat) :
    (t.run index fuel).Sieved index := by
  fun_induction Trial.run index fuel t with
  | case1 => exact h
  | case2 fuel t hcond ih => exact ih (h.step hindex hcond.2)
  | case3 => exact h

/-- Trial division begins without any knowledge. -/
theorem sieved_start {value : Nat} (hvalue : 0 < value) (hindex : 2 ≤ index) :
    Sieved index ⟨value, 2, 1, 1⟩ where
  divisor_odd := .inl rfl
  divisor_le := show 2 ≤ trialLimit + 1 by decide
  remaining_pos := hvalue
  not_dvd_remaining := fun p hp hlt => absurd hp.two_le (Nat.not_le.2 hlt)
  lt_of_dvd_inside := fun p hp hdvd => absurd hp.one_lt (by rw [Nat.dvd_one.1 hdvd]; omega)
  not_pow_dvd_inside := fun p hp hdvd => by
    have hone := Nat.dvd_one.1 hdvd
    rw [Nat.pow_eq_one] at hone
    have := hp.one_lt
    omega

/-- Trial division goes on to the square root of what remains or to the limit. -/
theorem run_exit (index : Nat) (t : Trial) (fuel : Nat)
    (hfuel : trialLimit ≤ t.divisor + fuel) :
    let t' := t.run index fuel
    t'.remaining < t'.divisor * t'.divisor ∨ trialLimit ≤ t'.divisor := by
  fun_induction Trial.run index fuel t with
  | case1 t => exact .inr hfuel
  | case2 fuel t hcond ih =>
    refine ih ?_
    -- the divisor makes up for the fuel
    have hgrow : t.divisor < (t.step index).divisor := by
      unfold Trial.step
      dsimp only
      split <;> dsimp only <;> split <;> omega
    omega
  | case3 fuel t hcond => omega

/-- Nothing comes out of a number that no small prime divides as often as the index says. -/
theorem Sieved.outside_run (h : t.Sieved index) (hindex : 2 ≤ index)
    (hfree : ∀ p : Nat, p.Prime → p < trialLimit → ¬ p ^ index ∣ t.remaining)
    (hout : t.outside = 1) (fuel : Nat) : (t.run index fuel).outside = 1 := by
  fun_induction Trial.run index fuel t with
  | case1 => exact hout
  | case2 fuel t hcond ih =>
    refine ih (h.step hindex hcond.2) (fun p hp hlt hdvd => hfree p hp hlt ?_) ?_
    · refine Nat.dvd_trans hdvd ?_
      unfold Trial.step
      dsimp only
      split
      · exact divideOut_dvd _ _ _ _
      · exact Nat.dvd_refl _
    · unfold Trial.step
      dsimp only
      split
      · next hmod =>
        have hprime := h.prime_divisor (Nat.dvd_of_mod_eq_zero hmod)
        have hpow := divideOut_mul_pow t.divisor t.remaining.log2 t.remaining 0
        generalize divideOut t.divisor t.remaining.log2 t.remaining 0 = r at hpow
        obtain ⟨m, c⟩ := r
        -- fewer factors than the index says are divided out, so none goes outside
        have hcount : c < index := by
          by_contra hge
          refine hfree _ hprime hcond.2 (Nat.dvd_trans (Nat.pow_dvd_pow _ (not_lt.1 hge)) ?_)
          exact ⟨m, by simpa [Nat.mul_comm] using hpow.symm⟩
        simp [hout, Nat.div_eq_of_lt hcount]
      · exact hout
  | case3 => exact hout

theorem Sieved.divisor_eq (h : t.Sieved index) (hlimit : trialLimit ≤ t.divisor) :
    t.divisor = trialLimit + 1 := by
  have hodd := h.divisor_odd
  have hle := h.divisor_le
  unfold trialLimit at hlimit hle ⊢
  omega

end Trial

/-- What trial division leaves of a number, and why it leaves that: the rest is a prime, or no root
of it was found. -/
theorem factor_inside_cases (estimate : Nat → Nat → Nat) {value index : Nat} (hvalue : 0 < value)
    (hindex : 2 ≤ index) : ∃ t : Trial, t.Sieved index ∧
      ((factor estimate value index).2 = t.inside ∨
        (factor estimate value index).2 = t.inside * t.remaining ∧
          (t.remaining < t.divisor * t.divisor ∨ trialLimit ≤ t.divisor ∧
            rootNear? (estimate t.remaining index) t.remaining index = none)) := by
  refine ⟨_, (Trial.sieved_start hvalue hindex).run hindex trialLimit, ?_⟩
  have hexit := Trial.run_exit index ⟨value, 2, 1, 1⟩ trialLimit (by simp)
  dsimp only at hexit
  unfold factor
  generalize Trial.run index trialLimit ⟨value, 2, 1, 1⟩ = t at hexit ⊢
  dsimp only
  split
  · exact .inl rfl
  · split
    · next hlt => exact .inr ⟨rfl, .inl hlt⟩
    · next hge =>
      split
      · exact .inl rfl
      · next hnone => exact .inr ⟨rfl, .inr ⟨hexit.resolve_left hge, hnone⟩⟩

theorem not_pow_dvd_factor_inside (estimate : Nat → Nat → Nat) {value index : Nat}
    (hvalue : 0 < value) (hindex : 2 ≤ index) {p : Nat} (hp : p.Prime) (hlt : p < trialLimit) :
    ¬ p ^ index ∣ (factor estimate value index).2 := by
  obtain ⟨t, ht, hinside | ⟨hinside, hrest⟩⟩ := factor_inside_cases estimate hvalue hindex
  · rw [hinside]
    exact ht.not_pow_dvd_inside p hp
  · rw [hinside]
    intro hdvd
    by_cases hrem : p ∣ t.remaining
    · -- a small prime that divides what remains is from the divisor on, so its square is too large
      have hge : t.divisor ≤ p := not_lt.1 fun hlt => ht.not_dvd_remaining p hp hlt hrem
      have hcop : Nat.Coprime (p ^ index) t.inside :=
        Nat.Coprime.pow_left _ ((Nat.Prime.coprime_iff_not_dvd hp).2 fun hin =>
          absurd (ht.lt_of_dvd_inside p hp hin) (not_lt.2 hge))
      have hle := Nat.le_of_dvd ht.remaining_pos (hcop.dvd_of_dvd_mul_left hdvd)
      rcases hrest with hsmall | ⟨hlimit, -⟩
      · have hsq : p * p ≤ p ^ index := by
          rw [← pow_two]
          exact Nat.pow_le_pow_right hp.pos hindex
        have := Nat.mul_le_mul hge hge
        omega
      · omega
    · -- all of the power divides what stays inside
      have hcop : Nat.Coprime (p ^ index) t.remaining :=
        Nat.Coprime.pow_left _ ((Nat.Prime.coprime_iff_not_dvd hp).2 hrem)
      exact ht.not_pow_dvd_inside p hp (hcop.dvd_of_dvd_mul_right hdvd)

/-- Nothing more comes out of what stays under the root. -/
theorem factor_factor_inside (estimate : Nat → Nat → Nat) {value index : Nat} (hvalue : 0 < value)
    (hindex : 2 ≤ index) :
    factor estimate (factor estimate value index).2 index =
      (1, (factor estimate value index).2) := by
  have hfree := @not_pow_dvd_factor_inside estimate value index hvalue hindex
  obtain ⟨-, hpos, -⟩ :=
    bounds_of_pow_mul_eq (by omega) hvalue (factor_pow_mul estimate hvalue index)
  obtain ⟨t₁, ht₁, hcases⟩ := factor_inside_cases estimate hvalue hindex
  generalize (factor estimate value index).2 = u at hfree hpos hcases
  have hstart := Trial.sieved_start hpos hindex
  have hout := hstart.outside_run hindex (fun p hp hlt => hfree hp hlt) rfl trialLimit
  have ht₂ := hstart.run hindex trialLimit
  have hexit := Trial.run_exit index ⟨u, 2, 1, 1⟩ trialLimit (by simp)
  have hproduct := Trial.product_run index trialLimit ⟨u, 2, 1, 1⟩
  unfold factor
  generalize Trial.run index trialLimit ⟨u, 2, 1, 1⟩ = t₂ at hout ht₂ hexit hproduct
  simp only [Trial.product, hout, Nat.one_pow, Nat.one_mul] at hproduct
  dsimp only at hexit ⊢
  rw [hout]
  split
  · next hle =>
    have hone : t₂.remaining = 1 := by have := ht₂.remaining_pos; omega
    rw [← hproduct, hone, Nat.mul_one]
  · next hgt =>
    split
    · rw [hproduct]
    · next hge =>
      -- the search for a root has the same argument as the first time, when it found none
      have hlast := ht₂.divisor_eq (hexit.resolve_left hge)
      have hcop := ht₂.coprime ht₁ (hlast ▸ ht₁.divisor_le)
      have hrem : t₂.remaining ∣ u := ⟨t₂.inside, by rw [← hproduct, Nat.mul_comm]⟩
      rcases hcases with hu | ⟨hu, hrest⟩
      · rw [hu] at hrem
        have hone := hcop.eq_one_of_dvd hrem
        omega
      · rw [hu] at hrem
        have hdvd₁ := hcop.dvd_of_dvd_mul_left hrem
        have hle := Nat.le_of_dvd ht₁.remaining_pos hdvd₁
        have hsq := Nat.mul_le_mul ht₁.divisor_le ht₁.divisor_le
        -- what remained the first time is not below the square of the last divisor either
        rw [hlast] at hge
        obtain ⟨hlimit, hnone⟩ := hrest.resolve_left (by omega)
        have hcop₂ := ht₁.coprime ht₂ (by rw [hlast, ht₁.divisor_eq hlimit])
        have hdvd₂ : t₁.remaining ∣ t₂.remaining :=
          hcop₂.dvd_of_dvd_mul_left ⟨t₁.inside, by rw [hproduct, hu, Nat.mul_comm]⟩
        rw [Nat.dvd_antisymm hdvd₁ hdvd₂, hnone]
        dsimp only
        rw [Nat.dvd_antisymm hdvd₂ hdvd₁, hproduct]

/-- **Extraction is exhaustive**: nothing more comes out of what stays under the root. -/
theorem extractWith_extractWith (estimate : Nat → Nat → Nat) (value : Rat) (index : Nat) :
    extractWith estimate (extractWith estimate value index).2 index =
      (1, (extractWith estimate value index).2) := by
  by_cases hskip : value.den ≠ 1 ∨ value.num < 2 ∨ index < 2 ∨ Width.isInt128 value.num = false
  · have hsame : extractWith estimate value index = (1, value) := by
      rw [extractWith, if_pos hskip]
    rw [hsame]
    exact hsame
  · have hinside : (extractWith estimate value index).2 =
        ((factor estimate value.num.toNat index).2 : Rat) := by
      rw [extractWith, if_neg hskip]
    simp only [ne_eq, not_or, Decidable.not_not, not_lt] at hskip
    rw [hinside, extractWith]
    split
    · rfl
    · rw [Rat.num_natCast, Int.toNat_natCast,
        factor_factor_inside estimate (by omega) (by omega)]
      simp

end Resolvent.PerfectPower

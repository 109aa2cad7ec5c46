import Resolvent.Proofs.Form.Arithmetic
import Resolvent.Proofs.Form.Unfolding
import Mathlib.Data.Nat.Factorization.Basic
import Mathlib.Algebra.Squarefree.Basic

/-!
# Numbers

Numbers are forms made of the circle number, Euler's number, the imaginary unit and roots of whole
numbers.  The class `Monomial.IsNumber P B` bounds what occurs in them: radicands are made of the
primes of `P`, and exponents are at most `B`.

Within these bounds extraction leaves nothing in a radicand that could be taken out
(`PerfectPower.extract_of_dvd`), and every valuation admits what is normalised.  The product of two
numbers is a number with larger exponents (`Form.over_mulWith_of_isNumber`), and the inverse of a
number is one too unless it is left as a reciprocal (`Form.inverseWith_of_isNumber`), which stays
visible in all further products (`Form.hasReciprocal_mulWith`).
-/

namespace Resolvent

open PerfectPower (trialLimit)

/-- The atom is a constant.  The radicand of a root divides a power of `P`, and the products of two
such radicands are below `2 ^ 127`. -/
def Atom.IsNumber (P : Nat) : Atom → Prop
  | .pi | .e | .imaginaryUnit => True
  | .root q n => P ^ (n * (n - 1)) < 2 ^ 127 ∧ ∃ u : Nat, q = u ∧ u ∣ P ^ (n - 1)
  | _ => False

/-- The monomial is normal, its atoms are constants, and its exponents are at most `B`. -/
structure Monomial.IsNumber (P B : Nat) (m : Monomial) : Prop where
  /-- The monomial is normal. -/
  normal : m.Normal 0
  /-- The atoms are constants. -/
  atoms : ∀ x ∈ m.factors, x.1.IsNumber P
  /-- The exponents are bounded. -/
  exponent : ∀ x ∈ m.factors, x.2.natAbs ≤ B

theorem Monomial.IsNumber.mono {P B C : Nat} {m : Monomial} (h : m.IsNumber P B) (hBC : B ≤ C) :
    m.IsNumber P C :=
  ⟨h.normal, h.atoms, fun x hx => (h.exponent x hx).trans hBC⟩

namespace PerfectPower

/-- The number is a product of different primes, which are all small enough to be tried as
divisors. -/
structure TrialBase (P : Nat) : Prop where
  /-- No prime occurs twice. -/
  squarefree : Squarefree P
  /-- The primes are below the limit. -/
  lt_trialLimit : ∀ p : Nat, p.Prime → p ∣ P → p < trialLimit

theorem TrialBase.pos {P : Nat} (hP : TrialBase P) : 0 < P := Nat.pos_of_ne_zero hP.squarefree.ne_zero

/-- A number that is made of the primes of another one and that no prime divides `n` times divides
the power with the exponent `n - 1`. -/
theorem dvd_pow_of_not_pow_dvd {P u k n : Nat} (hP : 0 < P) (hu : u ∣ P ^ k)
    (hfree : ∀ p : Nat, p.Prime → p ∣ P → ¬ p ^ n ∣ u) : u ∣ P ^ (n - 1) := by
  have hpos : 0 < u := Nat.pos_of_dvd_of_pos hu (pow_pos hP _)
  rw [← Nat.factorization_le_iff_dvd hpos.ne' (pow_pos hP _).ne']
  intro p
  by_cases hp : p.Prime ∧ p ∣ u
  · obtain ⟨hp, hpu⟩ := hp
    have hpP : p ∣ P := hp.dvd_of_dvd_pow (hpu.trans hu)
    have hlt : u.factorization p < n := by
      by_contra hge
      exact hfree p hp hpP ((hp.pow_dvd_iff_le_factorization hpos.ne').2 (not_lt.1 hge))
    have hPp : 1 ≤ P.factorization p :=
      (hp.pow_dvd_iff_le_factorization hP.ne').1 (by rwa [pow_one])
    rw [Nat.factorization_pow, Finsupp.smul_apply, smul_eq_mul]
    calc u.factorization p ≤ (n - 1) * 1 := by omega
      _ ≤ (n - 1) * P.factorization p := Nat.mul_le_mul_left _ hPp
  · rw [Nat.factorization_eq_zero_iff _ _ |>.2 (by tauto)]
    exact Nat.zero_le _

/-- Extraction leaves a number free of perfect powers where all primes are small. -/
theorem extract_of_dvd {P r n : Nat} (hP : TrialBase P) (hn : 2 ≤ n)
    (hr : r ∣ P ^ (n * (n - 1))) (hfits : P ^ (n * (n - 1)) < 2 ^ 127) :
    ∃ u : Nat, (extract r n).2 = u ∧ u ∣ P ^ (n - 1) := by
  have hrpos : 0 < r := Nat.pos_of_dvd_of_pos hr (pow_pos hP.pos _)
  have hlt : r < 2 ^ 127 := (Nat.le_of_dvd (pow_pos hP.pos _) hr).trans_lt hfits
  by_cases hone : r = 1
  · refine ⟨1, ?_, one_dvd _⟩
    rw [hone]
    simp [extract, extractWith]
  · have hwhole : ¬ ((r : Rat).den ≠ 1 ∨ (r : Rat).num < 2 ∨ n < 2 ∨
        Width.isInt128 (r : Rat).num = false) := by
      have hbits : Width.isInt128 (r : Int) = true := by
        simp only [Width.isInt128, decide_eq_true_eq]
        norm_num at hlt
        omega
      rw [Rat.den_natCast, Rat.num_natCast, hbits]
      simp
      omega
    have hdvd : (factor estimate r n).2 ∣ r :=
      Dvd.intro_left _ (factor_pow_mul estimate hrpos n)
    refine ⟨(factor estimate r n).2, ?_, ?_⟩
    · rw [extract, extractWith, if_neg hwhole, Rat.num_natCast, Int.toNat_natCast]
    · exact dvd_pow_of_not_pow_dvd hP.pos (hdvd.trans hr) fun p hp hpP =>
        not_pow_dvd_factor_inside estimate hrpos hn hp (hP.lt_trialLimit p hp hpP)

end PerfectPower

open PerfectPower (TrialBase)

/-! ### Radicands -/

namespace Form

/-- The radicand of a root with an index, one for other atoms. -/
def radicandAt (n : Nat) : Atom → Rat
  | .root q m => if m = n then q else 1
  | _ => 1

theorem factorsValue_radicandAt (n : Nat) (factors : List (Atom × Int)) :
    Monomial.factorsValue (radicandAt n) factors =
      ((radicandsOf n factors).map fun x => x.1 ^ x.2).prod := by
  induction factors with
  | nil => rfl
  | cons x factors ih =>
    obtain ⟨a, k⟩ := x
    rw [Monomial.factorsValue_cons, ih]
    by_cases hroot : ∃ q m, a = .root q m
    · obtain ⟨q, m, rfl⟩ := hroot
      rw [radicandsOf_cons_root]
      by_cases h : n = m
      · rw [if_pos h, List.map_cons, List.prod_cons, radicandAt, if_pos h.symm]
      · rw [if_neg h, radicandAt, if_neg (Ne.symm h), one_zpow, one_mul]
    · have hnot : ∀ q m, a ≠ .root q m := fun q m h => hroot ⟨q, m, h⟩
      rw [radicandsOf_cons_of_not_root hnot]
      have hone : radicandAt n a = 1 := by
        cases a with
        | root q m => exact absurd rfl (hnot q m)
        | _ => rfl
      rw [hone, one_zpow, one_mul]

/-- What is left under the root divides the product of powers, where no exponent is negative. -/
theorem exists_restProduct_of_nonneg {n : Nat} {radicands : List (Rat × Int)}
    (h : ∀ x ∈ radicands, (∃ u : Nat, 0 < u ∧ x.1 = u) ∧ 0 ≤ x.2 ∧
      Width.isInt32 (x.2 % n) = true) :
    ∃ r s : Nat, restProduct n radicands = r ∧ (radicands.map fun x => x.1 ^ x.2).prod = r * s := by
  induction radicands with
  | nil => exact ⟨1, 1, by simp [restProduct], by simp⟩
  | cons x radicands ih =>
    obtain ⟨q, k⟩ := x
    obtain ⟨⟨u, hu, rfl⟩, hk, hfits⟩ := h _ List.mem_cons_self
    obtain ⟨r, s, hr, hs⟩ := ih fun y hy => h y (List.mem_cons_of_mem _ hy)
    have hu' : (u : Rat) ≠ 0 := by exact_mod_cast hu.ne'
    obtain ⟨k, rfl⟩ := Int.eq_ofNat_of_zero_le hk
    refine ⟨u ^ (k % n) * r, u ^ (n * (k / n)) * s, ?_, ?_⟩
    · rw [restProduct_cons, restPower_eq (by exact_mod_cast hu) hfits, hr]
      push_cast
      congr 1
    · rw [List.map_cons, List.prod_cons, hs]
      have hsplit : (u : Rat) ^ (k : Int) = u ^ (k % n) * u ^ (n * (k / n)) := by
        rw [zpow_natCast, ← pow_add, Nat.mod_add_div]
      dsimp only
      rw [hsplit]
      push_cast
      ring

/-- What is left under the root of inverse roots is a power of the product of the radicands. -/
theorem restProduct_of_neg_one {n : Nat} (hn : 2 ≤ n) (hfits : Width.isInt32 ((-1 : Int) % n) = true)
    {radicands : List (Rat × Int)} (h : ∀ x ∈ radicands, 0 < x.1 ∧ x.2 = -1) :
    restProduct n radicands = ((radicands.map fun x => x.1 ^ x.2).prod)⁻¹ ^ (n - 1) := by
  induction radicands with
  | nil => simp [restProduct]
  | cons x radicands ih =>
    obtain ⟨q, k⟩ := x
    obtain ⟨hq, rfl⟩ := h _ List.mem_cons_self
    have hrest : (-1 : Int) % n = ((n - 1 : Nat) : Int) := by
      rw [Int.emod_def, Int.ediv_eq_neg_one_of_neg_of_le (by omega) (by omega)]
      push_cast [show 1 ≤ n by omega]
      ring
    dsimp only at hq
    rw [restProduct_cons, ih fun y hy => h y (List.mem_cons_of_mem _ hy),
      restPower_eq hq hfits, hrest, List.map_cons, List.prod_cons, mul_inv, mul_pow]
    simp

theorem radicandAt_ne_zero {a : Atom} (h : a.Proper) (n : Nat) : radicandAt n a ≠ 0 := by
  cases a with
  | root q m =>
    rw [radicandAt]
    split
    · exact h.1.ne'
    · exact one_ne_zero
  | _ => exact one_ne_zero

end Form

namespace Monomial

variable {m : Monomial} {q : Rat} {n : Nat} {k : Int}

/-- The radicand of the root with an index, one if there is no such root. -/
def radicand (m : Monomial) (n : Nat) : Rat := factorsValue (Form.radicandAt n) m.factors

theorem Arranged.radicand_eq (h : m.Arranged) (hmem : (.root q n, k) ∈ m.factors) :
    m.radicand n = q := by
  obtain rfl : k = 1 := h.exponents _ hmem
  rw [radicand, factorsValue_eq_of_mem h.sorted.pairwise_ne hmem fun y hy hne => ?_]
  · simp [Form.radicandAt]
  · obtain ⟨a, k⟩ := y
    cases a with
    | root r j =>
      rw [Form.radicandAt, if_neg]
      rintro rfl
      exact hne (by rw [h.roots hy hmem])
    | _ => rfl

theorem radicand_eq_one (h : ∀ q k, (.root q n, k) ∉ m.factors) : m.radicand n = 1 := by
  refine factorsValue_eq_one fun y hy => ?_
  obtain ⟨a, k⟩ := y
  cases a with
  | root r j =>
    rw [Form.radicandAt, if_neg]
    rintro rfl
    exact h r k hy
  | _ => rfl

theorem Arranged.exponentSum_root (h : m.Arranged) (q : Rat) (n : Nat) :
    exponentSum (.root q n) m.factors = 0 ∨ exponentSum (.root q n) m.factors = 1 := by
  by_cases hmem : ∃ k, (.root q n, k) ∈ m.factors
  · obtain ⟨k, hk⟩ := hmem
    right
    rw [exponentSum_eq_of_mem h.sorted.pairwise_ne hk]
    exact h.exponents _ hk
  · exact .inl (exponentSum_eq_zero fun x hx heq => hmem ⟨x.2, heq ▸ hx⟩)

end Monomial

namespace Monomial.IsNumber

variable {P B : Nat} {m : Monomial} (h : m.IsNumber P B)

include h

/-- The product of the radicands with an index is that of the only root, or one. -/
theorem exists_radicand (n : Nat) : ∃ u : Nat, m.radicand n = u ∧ u ∣ P ^ (n - 1) := by
  by_cases hroot : ∃ q k, (.root q n, k) ∈ m.factors
  · obtain ⟨q, k, hmem⟩ := hroot
    obtain ⟨-, u, rfl, hu⟩ := h.atoms _ hmem
    exact ⟨u, h.normal.arranged.radicand_eq hmem, hu⟩
  · refine ⟨1, ?_, one_dvd _⟩
    rw [Nat.cast_one]
    exact radicand_eq_one fun q k hmem => hroot ⟨q, k, hmem⟩

theorem natAbs_exponentSum_le (a : Atom) : (exponentSum a m.factors).natAbs ≤ B := by
  by_cases hmem : ∃ k, (a, k) ∈ m.factors
  · obtain ⟨k, hk⟩ := hmem
    rw [exponentSum_eq_of_mem h.normal.arranged.sorted.pairwise_ne hk]
    exact h.exponent _ hk
  · have hzero : exponentSum a m.factors = 0 :=
      exponentSum_eq_zero fun x hx heq => hmem ⟨x.2, heq ▸ hx⟩
    rw [hzero]
    exact Nat.zero_le B

end Monomial.IsNumber

namespace Form

/-! ### Products of constants -/

/-- A product of constants within bounds: the exponents, and what is left under the roots. -/
structure NumberProduct (P B : Nat) (factors : List (Atom × Int)) : Prop where
  /-- The atoms are proper. -/
  proper : ∀ x ∈ factors, x.1.Proper
  /-- The atoms are constants. -/
  atoms : ∀ x ∈ factors, x.1.IsNumber P
  /-- The exponents are bounded, once those of each atom are added up. -/
  exponent : ∀ x ∈ Monomial.collectFactors factors, x.2.natAbs ≤ B
  /-- What is left under the root with an index is made of the primes of `P`. -/
  rest : ∀ n : Nat, 2 ≤ n → n ≤ 64 → ∃ r : Nat,
    restProduct n (radicandsOf n (Monomial.collectFactors factors)) = r ∧ r ∣ P ^ (n * (n - 1))

variable {P B C : Nat} {m l : Monomial}

theorem isInt32_emod {n : Nat} (hn : 2 ≤ n) (hn' : n ≤ 64) (k : Int) :
    Width.isInt32 (k % n) = true := by
  have h0 := Int.emod_nonneg k (by omega : (n : Int) ≠ 0)
  have h1 := Int.emod_lt_of_pos k (by omega : (0 : Int) < n)
  simp only [Width.isInt32, decide_eq_true_eq]
  omega

theorem radicand_of_isNumber {q : Rat} {n : Nat} (hproper : (Atom.root q n).Proper)
    (h : (Atom.root q n).IsNumber P) : ∃ u : Nat, 0 < u ∧ q = u := by
  obtain ⟨-, u, rfl, -⟩ := h
  exact ⟨u, by exact_mod_cast hproper.1, rfl⟩

theorem numberProduct_append (hm : m.IsNumber P B) (hl : l.IsNumber P C) :
    NumberProduct P (B + C) (m.factors ++ l.factors) := by
  have hproper : ∀ x ∈ m.factors ++ l.factors, x.1.Proper := fun x hx =>
    (List.mem_append.1 hx).elim (fun hx => (hm.normal.atoms x hx).proper)
      fun hx => (hl.normal.atoms x hx).proper
  have hatoms : ∀ x ∈ m.factors ++ l.factors, x.1.IsNumber P := fun x hx =>
    (List.mem_append.1 hx).elim (hm.atoms x) (hl.atoms x)
  refine ⟨hproper, hatoms, fun x hx => ?_, fun n hn hn' => ?_⟩
  · have hsum := (Monomial.mem_collectFactors.1 hx).2
    rw [Monomial.exponentSum_append] at hsum
    have h₁ := hm.natAbs_exponentSum_le x.1
    have h₂ := hl.natAbs_exponentSum_le x.1
    omega
  · have hradicands : ∀ x ∈ radicandsOf n (Monomial.collectFactors (m.factors ++ l.factors)),
        (∃ u : Nat, 0 < u ∧ x.1 = u) ∧ 0 ≤ x.2 ∧ Width.isInt32 (x.2 % n) = true := by
      intro x hx
      have hmem := mem_radicandsOf.1 hx
      obtain ⟨k, hk⟩ := Monomial.exists_of_mem_collectFactors hmem
      have hsum := (Monomial.mem_collectFactors.1 hmem).2
      rw [Monomial.exponentSum_append] at hsum
      have h₁ := hm.normal.arranged.exponentSum_root x.1 n
      have h₂ := hl.normal.arranged.exponentSum_root x.1 n
      dsimp only at hsum
      exact ⟨radicand_of_isNumber (hproper _ hk) (hatoms _ hk), by omega, isInt32_emod hn hn' _⟩
    obtain ⟨r, s, hr, hs⟩ := exists_restProduct_of_nonneg hradicands
    obtain ⟨u, hu, hudvd⟩ := hm.exists_radicand n
    obtain ⟨w, hw, hwdvd⟩ := hl.exists_radicand n
    rw [← factorsValue_radicandAt, Monomial.factorsValue_collectFactors
      fun x hx => radicandAt_ne_zero (hproper x hx) n, Monomial.factorsValue_append, ← Monomial.radicand,
      ← Monomial.radicand, hu, hw] at hs
    have hs : u * w = r * s := by exact_mod_cast hs
    refine ⟨r, hr, ?_⟩
    calc r ∣ u * w := Dvd.intro s hs.symm
      _ ∣ P ^ (n - 1) * P ^ (n - 1) := Nat.mul_dvd_mul hudvd hwdvd
      _ = P ^ (2 * (n - 1)) := by rw [← pow_add, two_mul]
      _ ∣ P ^ (n * (n - 1)) := Nat.pow_dvd_pow P (Nat.mul_le_mul_right _ hn)

theorem numberProduct_inverse (hm : m.IsNumber P B) :
    NumberProduct P B (m.scaleExponents (-1)) := by
  have hmem : ∀ x ∈ m.scaleExponents (-1), ∃ k, (x.1, k) ∈ m.factors := by
    intro x hx
    obtain ⟨y, hy, rfl⟩ := List.mem_map.1 hx
    exact ⟨y.2, hy⟩
  have hproper : ∀ x ∈ m.scaleExponents (-1), x.1.Proper := fun x hx =>
    have ⟨k, hk⟩ := hmem x hx
    (hm.normal.atoms (x.1, k) hk).proper
  have hatoms : ∀ x ∈ m.scaleExponents (-1), x.1.IsNumber P := fun x hx =>
    have ⟨k, hk⟩ := hmem x hx
    hm.atoms (x.1, k) hk
  refine ⟨hproper, hatoms, fun x hx => ?_, fun n hn hn' => ?_⟩
  · have hsum := (Monomial.mem_collectFactors.1 hx).2
    rw [exponentSum_scaleExponents] at hsum
    have hle := hm.natAbs_exponentSum_le x.1
    omega
  · have hradicands : ∀ x ∈ radicandsOf n (Monomial.collectFactors (m.scaleExponents (-1))),
        0 < x.1 ∧ x.2 = -1 := by
      intro x hx
      have hx := mem_radicandsOf.1 hx
      obtain ⟨k, hk⟩ := Monomial.exists_of_mem_collectFactors hx
      obtain ⟨hne, hsum⟩ := Monomial.mem_collectFactors.1 hx
      rw [exponentSum_scaleExponents] at hsum
      have hone := hm.normal.arranged.exponentSum_root x.1 n
      dsimp only at hne hsum
      exact ⟨(hproper _ hk).1, by omega⟩
    have hrest := restProduct_of_neg_one hn (isInt32_emod hn hn' (-1)) hradicands
    obtain ⟨u, hu, hudvd⟩ := hm.exists_radicand n
    rw [← factorsValue_radicandAt, Monomial.factorsValue_collectFactors
      fun x hx => radicandAt_ne_zero (hproper x hx) n, Monomial.factorsValue_scaleExponents,
      Monomial.value, ← Monomial.radicand, hu, zpow_neg_one, inv_inv] at hrest
    refine ⟨u ^ (n - 1), by rw [hrest, Nat.cast_pow], ?_⟩
    calc u ^ (n - 1) ∣ (P ^ (n - 1)) ^ (n - 1) := pow_dvd_pow_of_dvd hudvd _
      _ = P ^ ((n - 1) * (n - 1)) := by rw [← pow_mul]
      _ ∣ P ^ (n * (n - 1)) := Nat.pow_dvd_pow P (Nat.mul_le_mul_right _ (Nat.sub_le n 1))

/-! ### Normalising products of constants -/

theorem stable_of_isNumber {x : Atom × Int} (h : x.1.IsNumber P) : Stable x := by
  obtain ⟨a, k⟩ := x
  cases a with
  | radical f n => exact h.elim
  | reciprocal f => exact h.elim
  | _ => trivial

theorem depth_le_of_isNumber {a : Atom} (h : a.IsNumber P) : a.depth ≤ 0 := by
  cases a with
  | pi | e | imaginaryUnit | root => exact (Atom.depth.eq_def _).le
  | _ => exact h.elim

/-- Powers beyond the limit are not multiplied out. -/
def PowerLimited (power : Form → Int → Option Form) : Prop :=
  ∀ f k, (maxExpandedPower : Int) < k → power f k = none

/-- A product of which nothing is multiplied out is the term that stays of it. -/
theorem exists_normalize_eq {factors : List (Atom × Int)}
    (hstable : ∀ x ∈ Monomial.collectFactors factors, Stable x) {c : Rat} (hc : c ≠ 0) (n : Nat) :
    ∃ power, PowerLimited power ∧ normalize n c factors =
      sharedTerm c (shares power (Monomial.collectFactors factors)) := by
  cases n with
  | zero =>
    refine ⟨fun _ _ => none, fun _ _ _ => rfl, ?_⟩
    rw [normalize, normalizeWith_eq _ _ hc]
    dsimp only
    split <;> rfl
  | succ n =>
    have hexpanded : ∀ g ∈ (shares (powWith (normalize n))
        (Monomial.collectFactors factors)).flatMap Share.expanded, g = one :=
      fun g hg => eq_one_of_mem_expanded hstable hg
    refine ⟨powWith (normalize n), fun _ _ hlarge => powWith_of_lt _ _ (by omega), ?_⟩
    rw [normalize, normalizeWith_eq _ _ hc]
    dsimp only
    rw [(productWithin_ones (fun _ _ => True) (normalize n) hexpanded).2, if_pos (by rfl)]

theorem exponent_of_mem_kept_share {power : Form → Int → Option Form} {x y : Atom × Int}
    (hx : x.1.IsNumber P) (hB : 1 ≤ B) (hB' : B ≤ 2147483647) (hexponent : x.2.natAbs ≤ B)
    (h : y ∈ (share power x).kept) : y.2.natAbs ≤ B := by
  obtain ⟨a, k⟩ := x
  have hclamp : Width.clamp32 k = k := by
    dsimp only at hexponent
    exact Width.clamp32_of_mem (by omega) (by omega)
  cases a with
  | imaginaryUnit =>
    simp only [share, unitShare] at h
    split at h
    · rw [List.mem_singleton.1 h]
      exact hB
    · cases h
  | root q n => cases h
  | pi =>
    rw [List.mem_singleton.1 h, hclamp]
    exact hexponent
  | e =>
    rw [List.mem_singleton.1 h, hclamp]
    exact hexponent
  | _ => exact hx.elim

namespace NumberProduct

variable {factors : List (Atom × Int)} (h : NumberProduct P B factors)

include h

theorem collected : ∀ x ∈ Monomial.collectFactors factors, x.1.Proper ∧ x.1.IsNumber P := fun x hx =>
  have ⟨k, hk⟩ := Monomial.exists_of_mem_collectFactors hx
  ⟨h.proper (x.1, k) hk, h.atoms (x.1, k) hk⟩

theorem stable : ∀ x ∈ Monomial.collectFactors factors, Stable x :=
  fun x hx => stable_of_isNumber (h.collected x hx).2

theorem unfoldable : Unfoldable 0 0 factors :=
  ⟨h.proper, fun x hx => depth_le_of_isNumber (h.atoms x hx),
    fun hx => (h.collected _ hx).2.elim⟩

/-- The factors that stay of a product of constants make up a number. -/
theorem isNumber_kept (hP : TrialBase P) (hB : 1 ≤ B) (hB' : B ≤ 2147483647)
    (power : Form → Int → Option Form) :
    (⟨Monomial.collectFactors
      ((shares power (Monomial.collectFactors factors)).flatMap Share.kept)⟩ :
        Monomial).IsNumber P B := by
  have hkept : ∀ y ∈ (shares power (Monomial.collectFactors factors)).flatMap Share.kept,
      y.1.IsNumber P ∧ y.2.natAbs ≤ B := by
    intro y hy
    rcases exists_of_mem_kept hy with ⟨x, hx, hy⟩ | ⟨n, hn, hy⟩
    · have hnumber := (h.collected x hx).2
      refine ⟨?_, exponent_of_mem_kept_share hnumber hB hB' (h.exponent x hx) hy⟩
      rw [atom_of_mem_kept_share hy]
      exact hnumber
    · obtain ⟨q, k, hmem⟩ := mem_rootIndices.1 hn
      obtain ⟨hproper, hfits, -⟩ := h.collected _ hmem
      obtain ⟨r, hr, hdvd⟩ := h.rest n hproper.2.1 hproper.2.2
      obtain ⟨u, hu, hudvd⟩ := PerfectPower.extract_of_dvd hP hproper.2.1 hdvd hfits
      rw [(eq_of_mem_kept_rootShare hy).1, hr]
      exact ⟨⟨hfits, u, hu, hudvd⟩, hB⟩
  have hmem : ∀ y ∈ Monomial.collectFactors
      ((shares power (Monomial.collectFactors factors)).flatMap Share.kept),
      y ∈ (shares power (Monomial.collectFactors factors)).flatMap Share.kept := fun y hy =>
    ((Monomial.mem_collectFactors_of_pairwise
      (pairwise_kept power (Monomial.sorted_collectFactors factors))).1 hy).2
  exact ⟨(h.unfoldable.normal_kept power fun x hx => .inl (h.stable x hx)).1,
    fun y hy => (hkept y (hmem y hy)).1, fun y hy => (hkept y (hmem y hy)).2⟩

theorem over_normalize (hP : TrialBase P) (hB : 1 ≤ B) (hB' : B ≤ 2147483647) (n : Nat) (c : Rat) :
    (normalize n c factors).Over (Monomial.IsNumber P B) := by
  by_cases hc : c = 0
  · rw [hc, normalize_zero_coefficient]
    exact over_zero _
  · obtain ⟨power, -, heq⟩ := exists_normalize_eq h.stable hc n
    rw [heq]
    exact over_ofTerm (h.isNumber_kept hP hB hB' power) _

theorem normalizeWithin {K : Type*} [Field K] [CharZero K] {v : Valuation K} (hpi : v .pi ≠ 0)
    (he : v .e ≠ 0) (hB' : B ≤ 2147483647) (n : Nat) (c : Rat) :
    NormalizeWithin v.Admits n c factors := by
  refine normalizeWithin_of_stable ⟨fun x hx => ?_, fun x hx => ?_, fun x hx => ?_⟩ h.stable n c
  · have hproper := h.proper x hx
    have hnumber := h.atoms x hx
    obtain ⟨a, k⟩ := x
    cases a with
    | pi => exact hpi
    | e => exact he
    | imaginaryUnit => exact v.imaginaryUnit_ne_zero
    | root q n => exact ⟨hproper.1, hproper.2.1⟩
    | _ => exact hnumber.elim
  · have hnumber := h.atoms x hx
    obtain ⟨a, k⟩ := x
    cases a with
    | radical => exact hnumber.elim
    | _ => trivial
  · obtain ⟨hproper, hnumber⟩ := h.collected x hx
    have hexponent := h.exponent x hx
    obtain ⟨a, k⟩ := x
    have hk : Width.isInt32 k = true := by
      dsimp only at hexponent
      simp only [Width.isInt32, decide_eq_true_eq]
      omega
    cases a with
    | root q n => exact ⟨hk, isInt32_emod hproper.2.1 hproper.2.2 k⟩
    | pi | e | imaginaryUnit => exact hk
    | _ => exact hnumber.elim

end NumberProduct

/-! ### Products of numbers -/

variable {f g : Form} {n : Nat}

theorem over_mulWith_of_isNumber (hP : TrialBase P) (hB : 1 ≤ B) (hBC : B + C ≤ 2147483647)
    (hf : f.Over (Monomial.IsNumber P B)) (hg : g.Over (Monomial.IsNumber P C)) (n : Nat) :
    (mulWith (normalize n) f g).Over (Monomial.IsNumber P (B + C)) :=
  over_mulWith (hf.imp fun _ hm => hm.mono (Nat.le_add_right B C))
    (hg.imp fun _ hm => hm.mono (Nat.le_add_left C B)) fun s hs t ht _ _ =>
      (numberProduct_append (hf s hs).2 (hg t ht).2).over_normalize hP (by omega) hBC n _

theorem mulWithin_of_isNumber {K : Type*} [Field K] [CharZero K] {v : Valuation K}
    (hpi : v .pi ≠ 0) (he : v .e ≠ 0) (hBC : B + C ≤ 2147483647)
    (hf : f.Over (Monomial.IsNumber P B)) (hg : g.Over (Monomial.IsNumber P C)) (n : Nat) :
    MulWithin (NormalizeWithin v.Admits n) f g := fun s hs t ht _ _ =>
  (numberProduct_append (hf s hs).2 (hg t ht).2).normalizeWithin hpi he hBC n _

/-! ### Reciprocals -/

/-- Nothing comes of the factor in a product: it is no radical, and no negative power of a
reciprocal. -/
def Inert : Atom × Int → Prop
  | (.radical _ _, _) => False
  | (.reciprocal _, k) => 0 < k
  | _ => True

theorem Inert.stable {x : Atom × Int} (h : Inert x) : Stable x := by
  obtain ⟨a, k⟩ := x
  cases a with
  | radical => exact h.elim
  | reciprocal => exact fun hneg => absurd hneg (not_lt.2 (le_of_lt h))
  | _ => trivial

theorem inert_of_isNumber {x : Atom × Int} (h : x.1.IsNumber P) : Inert x := by
  obtain ⟨a, k⟩ := x
  cases a with
  | radical | reciprocal => exact h.elim
  | _ => trivial

/-- Where no exponent of an atom is negative, none is above their sum. -/
theorem le_exponentSum {a : Atom} {factors : List (Atom × Int)}
    (h : ∀ k, (a, k) ∈ factors → 0 ≤ k) :
    0 ≤ Monomial.exponentSum a factors ∧
      ∀ k, (a, k) ∈ factors → k ≤ Monomial.exponentSum a factors := by
  induction factors with
  | nil => exact ⟨le_rfl, nofun⟩
  | cons y factors ih =>
    obtain ⟨b, l⟩ := y
    obtain ⟨hnonneg, hle⟩ := ih fun k hk => h k (List.mem_cons_of_mem _ hk)
    rw [Monomial.exponentSum_cons]
    dsimp only
    split
    · next heq =>
      have hl := h l (by rw [← heq]; exact List.mem_cons_self)
      refine ⟨by omega, fun k hk => ?_⟩
      rcases List.mem_cons.1 hk with hk | hk
      · obtain ⟨-, rfl⟩ := Prod.mk.inj hk
        omega
      · have := hle k hk
        omega
    · next hne =>
      refine ⟨by omega, fun k hk => ?_⟩
      rcases List.mem_cons.1 hk with hk | hk
      · exact absurd (Prod.mk.inj hk).1.symm hne
      · have := hle k hk
        omega

theorem inert_collectFactors {factors : List (Atom × Int)} (h : ∀ x ∈ factors, Inert x) :
    ∀ x ∈ Monomial.collectFactors factors, Inert x := by
  rintro ⟨a, k⟩ hx
  obtain ⟨l, hl⟩ := Monomial.exists_of_mem_collectFactors hx
  obtain ⟨hne, hsum⟩ := Monomial.mem_collectFactors.1 hx
  cases a with
  | radical => exact (h _ hl).elim
  | reciprocal f =>
    have hnonneg := (le_exponentSum fun k hk => le_of_lt (h (.reciprocal f, k) hk)).1
    dsimp only at hne hsum
    exact lt_of_le_of_ne (hsum ▸ hnonneg) (Ne.symm hne)
  | _ => trivial

end Form

/-- The factors are inert, and one of them is a reciprocal. -/
structure Monomial.HasReciprocal (m : Monomial) : Prop where
  /-- Nothing comes of the factors in a product. -/
  inert : ∀ x ∈ m.factors, Form.Inert x
  /-- There is a reciprocal. -/
  reciprocal : ∃ f k, (.reciprocal f, k) ∈ m.factors

namespace Form

variable {P B C : Nat} {f g : Form}

theorem clamp32_pos {k : Int} (h : 0 < k) : 0 < Width.clamp32 k := by
  unfold Width.clamp32
  split
  · omega
  · split <;> omega

theorem inert_of_mem_kept {power : Form → Int → Option Form} {factors : List (Atom × Int)}
    (h : ∀ x ∈ factors, Inert x) {y : Atom × Int}
    (hy : y ∈ (shares power factors).flatMap Share.kept) : Inert y := by
  rcases exists_of_mem_kept hy with ⟨⟨a, k⟩, hx, hy⟩ | ⟨n, -, hy⟩
  · have hatom := atom_of_mem_kept_share hy
    have hinert := h _ hx
    obtain ⟨b, l⟩ := y
    dsimp only at hatom
    subst hatom
    cases b with
    | radical => exact hinert
    | reciprocal f =>
      rw [share, reciprocalShare, if_neg (not_lt.2 (le_of_lt hinert))] at hy
      have hl := (Prod.mk.inj (List.mem_singleton.1 hy)).2
      exact hl ▸ clamp32_pos hinert
    | _ => trivial
  · rw [(eq_of_mem_kept_rootShare hy).1]
    trivial

/-- Normalising a product with a reciprocal keeps the reciprocal. -/
theorem hasReciprocal_normalize {factors : List (Atom × Int)} (h : ∀ x ∈ factors, Inert x)
    {i : Form} {k : Int} (hi : (.reciprocal i, k) ∈ factors) (n : Nat) (c : Rat) :
    (normalize n c factors).Over Monomial.HasReciprocal := by
  by_cases hc : c = 0
  · rw [hc, normalize_zero_coefficient]
    exact over_zero _
  have hcollected := inert_collectFactors h
  obtain ⟨power, -, heq⟩ := exists_normalize_eq (fun x hx => (hcollected x hx).stable) hc n
  rw [heq]
  have hpairwise := pairwise_kept power (Monomial.sorted_collectFactors factors)
  have hinert : ∀ y ∈ (shares power (Monomial.collectFactors factors)).flatMap Share.kept, Inert y :=
    fun y hy => inert_of_mem_kept hcollected hy
  refine over_ofTerm ⟨fun y hy => hinert y
    ((Monomial.mem_collectFactors_of_pairwise hpairwise).1 hy).2, ?_⟩ _
  -- the exponents of the reciprocal add up to a positive one
  have hpos : 0 < Monomial.exponentSum (.reciprocal i) factors :=
    lt_of_lt_of_le (h _ hi)
      ((le_exponentSum fun k hk => le_of_lt (h (.reciprocal i, k) hk)).2 k hi)
  have hmem : (.reciprocal i, Monomial.exponentSum (.reciprocal i) factors) ∈
      Monomial.collectFactors factors := Monomial.mem_collectFactors.2 ⟨hpos.ne', rfl⟩
  refine ⟨i, Width.clamp32 (Monomial.exponentSum (.reciprocal i) factors),
    (Monomial.mem_collectFactors_of_pairwise hpairwise).2 ⟨(clamp32_pos hpos).ne', ?_⟩⟩
  refine List.mem_flatMap.2 ⟨_, List.mem_append_left _ (List.mem_map_of_mem hmem), ?_⟩
  rw [share, reciprocalShare, if_neg (not_lt.2 hpos.le)]
  exact List.mem_singleton_self _

theorem hasReciprocal_mulWith (hf : f.Over (Monomial.IsNumber P B))
    (hg : g.Over Monomial.HasReciprocal) (n : Nat) :
    (mulWith (normalize n) f g).Over Monomial.HasReciprocal := by
  refine over_sumAll fun x hx => ?_
  obtain ⟨s, hs, hx⟩ := List.mem_flatMap.1 hx
  obtain ⟨t, ht, rfl⟩ := List.mem_map.1 hx
  obtain ⟨hinert, i, k, hi⟩ := (hg t ht).2
  unfold mulTermWith
  dsimp only
  split
  · next hone =>
    rw [show t.1.factors = [] by simpa [Monomial.isOne] using hone] at hi
    cases hi
  · split
    · exact over_ofTerm (hg t ht).2 _
    · refine hasReciprocal_normalize (fun x hx => ?_) (List.mem_append_right _ hi) n _
      exact (List.mem_append.1 hx).elim (fun hx => inert_of_isNumber ((hf s hs).2.atoms x hx))
        (hinert x)

theorem hasReciprocal_reciprocalOf (f : Form) (n : Nat) :
    (reciprocalOf (normalize n) f).Over Monomial.HasReciprocal :=
  hasReciprocal_normalize (fun x hx => by rw [List.mem_singleton.1 hx]; exact Int.one_pos)
    List.mem_cons_self n _

/-! ### Inverses -/

/-- The inverse is a number, with all exponents at most `C`, and valuations admit what computing it
normalises. -/
def IsRational (P C n budget : Nat) (f g : Form) : Prop :=
  g.Over (Monomial.IsNumber P C) ∧
    ∀ {K : Type} [Field K] [CharZero K] {v : Valuation K}, v .pi ≠ 0 → v .e ≠ 0 →
      InverseWithin (NormalizeWithin v.Admits n) (normalize n) budget f

theorem single_inverse_of_isNumber (hP : TrialBase P) (hB : 1 ≤ B) (hB' : B ≤ 2147483647)
    (hf : f.Over (Monomial.IsNumber P B)) {m : Monomial} {q : Rat}
    (hm : f.singleTerm? = some (m, q)) (n : Nat) :
    (normalize n q⁻¹ (m.scaleExponents (-1))).Over (Monomial.IsNumber P B) ∧
      ∀ {K : Type} [Field K] [CharZero K] {v : Valuation K}, v .pi ≠ 0 → v .e ≠ 0 →
        NormalizeWithin v.Admits n q⁻¹ (m.scaleExponents (-1)) := by
  have hmem : (m, q) ∈ f.terms := by
    rw [terms_of_singleTerm? hm]
    exact List.mem_singleton_self _
  have hproduct := numberProduct_inverse (hf (m, q) hmem).2
  exact ⟨hproduct.over_normalize hP hB hB' n _,
    fun hpi he => hproduct.normalizeWithin hpi he hB' n _⟩

/-- Each conjugate doubles the exponents of the denominator and adds to those of the inverse. -/
theorem exponentBound_succ (budget B : Nat) :
    (2 ^ (budget + 1 + 1) - 1) * B = B + (2 ^ (budget + 1) - 1) * (B + B) := by
  obtain ⟨k, hk⟩ : ∃ k, 2 ^ (budget + 1) = k + 1 :=
    ⟨2 ^ (budget + 1) - 1, (Nat.sub_add_cancel Nat.one_le_two_pow).symm⟩
  rw [pow_succ 2 (budget + 1), hk, show (k + 1) * 2 - 1 = 2 * k + 1 by omega, Nat.add_sub_cancel]
  ring

/-- The inverse of a number is a number, or all its monomials have a reciprocal. -/
theorem inverseWith_of_isNumber (hP : TrialBase P) {n budget : Nat} (hB : 1 ≤ B)
    (hbound : (2 ^ (budget + 1) - 1) * B ≤ 2147483647) (hf : f.Over (Monomial.IsNumber P B))
    (hg : inverseWith (normalize n) budget f = some g) :
    IsRational P ((2 ^ (budget + 1) - 1) * B) n budget f g ∨ g.Over Monomial.HasReciprocal := by
  induction budget generalizing f g B with
  | zero =>
    rw [show (2 ^ (0 + 1) - 1) * B = B from Nat.one_mul B] at hbound ⊢
    rw [inverseWith] at hg
    split at hg
    · cases hg
    · split at hg
      · next m q hm =>
        cases hg
        obtain ⟨hover, hwithin⟩ := single_inverse_of_isNumber hP hB hbound hf hm n
        refine .inl ⟨hover, fun hpi he => .inr ?_⟩
        rw [hm]
        exact hwithin hpi he
      · cases hg
        exact .inr (hasReciprocal_reciprocalOf f n)
  | succ budget ih =>
    rw [exponentBound_succ] at hbound ⊢
    have hfactor : 1 ≤ 2 ^ (budget + 1) - 1 := by
      rw [pow_succ]
      have := Nat.one_le_two_pow (n := budget)
      omega
    have hpow := Nat.mul_le_mul_right (B + B) hfactor
    rw [inverseWith] at hg
    split at hg
    · cases hg
    · split at hg
      · next m q hm =>
        cases hg
        obtain ⟨hover, hwithin⟩ := single_inverse_of_isNumber hP hB (by omega) hf hm n
        refine .inl ⟨hover.imp fun _ hm => hm.mono (by omega), fun hpi he => .inr ?_⟩
        rw [hm]
        exact hwithin hpi he
      · next hm =>
        split at hg
        · cases hg
          exact .inr (hasReciprocal_reciprocalOf f n)
        · next c hc =>
          have hover := hf.conjugate hc
          have hproduct := over_mulWith_of_isNumber hP hB (by omega) hf hover n
          split at hg
          · next i hi =>
            cases hg
            rcases ih (by omega) (by omega) hproduct hi with ⟨hinverse, hwithin⟩ | hreciprocal
            · refine .inl ⟨over_mulWith_of_isNumber hP hB hbound hover hinverse n,
                fun hpi he => .inr ?_⟩
              rw [hm]
              dsimp only
              rw [hc]
              dsimp only
              rw [hi]
              exact ⟨mulWithin_of_isNumber hpi he (by omega) hf hover n, hwithin hpi he,
                mulWithin_of_isNumber hpi he hbound hover hinverse n⟩
            · exact .inr (hasReciprocal_mulWith hover hreciprocal n)
          · cases hg
            exact .inr (hasReciprocal_reciprocalOf f n)

end Form

end Resolvent

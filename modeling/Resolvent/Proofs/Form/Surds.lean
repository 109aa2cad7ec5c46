import Resolvent.Proofs.Form.Built
import Resolvent.Proofs.Form.Laws

/-!
# Surds

Sums of products of symbols, constants and roots of whole numbers.  Normalising a product of two such
terms merges the roots of an index into one and extracts from it what trial division finds, so the
product is a single term again (`Form.over_mulTermWith_surd`), whose radicands divide the products of
those it comes from.

Extraction gives up beyond 128 bits and passes over large primes.  Until then the order of
multiplication does not show: `Form.mul_mul_of_powerFree` says that two products of three forms are
equal if nothing is left in the radicands that could be extracted, and
`Form.mul_mul_eq_mul_mul` that this is so if the radicands are small.  The proof compares values
under all twists of a valuation.  Beyond 128 bits the order does show (`Form.exists_mul_mul_ne`).
-/

namespace Resolvent

open PerfectPower (extract trialLimit)

variable {m l : Monomial}

/-! ### Extraction from whole numbers -/

namespace PerfectPower

/-- What extraction leaves of a whole number divides it. -/
theorem exists_extract_eq {r : Nat} (hr : 0 < r) (n : Nat) :
    ∃ u : Nat, (extract r n).2 = u ∧ u ∣ r := by
  unfold extract extractWith
  split
  · exact ⟨r, rfl, dvd_rfl⟩
  · refine ⟨(factor estimate r n).2, ?_, Dvd.intro_left _ (factor_pow_mul estimate hr n)⟩
    rw [Rat.num_natCast, Int.toNat_natCast]

/-- No prime that is tried divides a number `n` times from which nothing can be extracted, unless
the number is too large for extraction. -/
theorem not_pow_dvd_of_extract_eq {u n p : Nat} (hu : 1 < u) (hfits : u < 2 ^ 127) (hn : 2 ≤ n)
    (h : extract u n = (1, (u : Rat))) (hp : p.Prime) (hp' : p < trialLimit) : ¬ p ^ n ∣ u := by
  have hbits : Width.isInt128 (u : Int) = true := by
    simp only [Width.isInt128, decide_eq_true_eq]
    norm_num at hfits
    omega
  have hwhole : ¬ ((u : Rat).den ≠ 1 ∨ (u : Rat).num < 2 ∨ n < 2 ∨
      Width.isInt128 (u : Rat).num = false) := by
    rw [Rat.den_natCast, Rat.num_natCast, hbits]
    simp
    omega
  rw [extract, extractWith, if_neg hwhole, Rat.num_natCast, Int.toNat_natCast] at h
  have hinside : (factor estimate u n).2 = u := by exact_mod_cast (Prod.mk.inj h).2
  exact hinside ▸ not_pow_dvd_factor_inside estimate (by omega) hn hp hp'

end PerfectPower

/-! ### Terms -/

/-- The atom is a symbol, a constant, or a root of a whole number from which nothing can be
extracted. -/
def Atom.IsSurd : Atom → Prop
  | .root q n => 2 ≤ n ∧ (∃ u : Nat, 1 < u ∧ q = u) ∧ extract q n = (1, q)
  | a => a.IsBasic

/-- The monomial is a product of symbols, constants and roots of whole numbers. -/
structure Monomial.IsSurd (m : Monomial) : Prop where
  /-- The factors are arranged. -/
  arranged : m.Arranged
  /-- The atoms are symbols, constants and roots of whole numbers. -/
  atoms : ∀ x ∈ m.factors, x.1.IsSurd

/-- The form is a sum of products of symbols, constants and roots of whole numbers. -/
structure Form.IsSurd (f : Form) : Prop where
  /-- The monomials are in order. -/
  sorted : f.Sorted
  /-- The coefficients are not zero, and the monomials are products of atoms of these kinds. -/
  terms : f.Over Monomial.IsSurd

/-- What roots merge to divides the product of the radicands with the same index. -/
def Monomial.MergesTo (m l k : Monomial) : Prop :=
  ∀ n, ∃ j : Nat, m.radicand n * l.radicand n = k.radicand n * j

namespace Monomial

theorem isSurd_one : Monomial.one.IsSurd := ⟨⟨List.Pairwise.nil, nofun, nofun⟩, nofun⟩

theorem radicand_one (n : Nat) : Monomial.one.radicand n = 1 := rfl

theorem IsSurd.exists_radicand (h : m.IsSurd) (n : Nat) : ∃ u : Nat, 0 < u ∧ m.radicand n = u := by
  by_cases hroot : ∃ q k, (.root q n, k) ∈ m.factors
  · obtain ⟨q, k, hmem⟩ := hroot
    obtain ⟨-, ⟨u, hu, rfl⟩, -⟩ := h.atoms _ hmem
    exact ⟨u, by omega, h.arranged.radicand_eq hmem⟩
  · refine ⟨1, one_pos, ?_⟩
    rw [Nat.cast_one]
    exact radicand_eq_one fun q k hmem => hroot ⟨q, k, hmem⟩

end Monomial

namespace Form

/-! ### Products of terms -/

section Products

variable (hm : m.IsSurd) (hl : l.IsSurd)

include hm hl

theorem isSurd_of_mem_append {x : Atom × Int} (hx : x ∈ m.factors ++ l.factors) : x.1.IsSurd :=
  (List.mem_append.1 hx).elim (hm.atoms x) (hl.atoms x)

theorem isSurd_of_mem_collected {x : Atom × Int}
    (hx : x ∈ Monomial.collectFactors (m.factors ++ l.factors)) : x.1.IsSurd :=
  have ⟨k, hk⟩ := Monomial.exists_of_mem_collectFactors hx
  isSurd_of_mem_append hm hl (x := (x.1, k)) hk

theorem stable_of_isSurd {x : Atom × Int}
    (hx : x ∈ Monomial.collectFactors (m.factors ++ l.factors)) : Stable x := by
  have hsurd := isSurd_of_mem_collected hm hl hx
  obtain ⟨a, k⟩ := x
  cases a with
  | radical | reciprocal => exact hsurd.elim
  | _ => trivial

/-- Two roots that are equal are a square at most. -/
theorem exponent_root_collected {q : Rat} {n : Nat} {k : Int}
    (hx : (.root q n, k) ∈ Monomial.collectFactors (m.factors ++ l.factors)) : k = 1 ∨ k = 2 := by
  obtain ⟨hne, hsum⟩ := Monomial.mem_collectFactors.1 hx
  rw [Monomial.exponentSum_append] at hsum
  have h₁ := hm.arranged.exponentSum_root q n
  have h₂ := hl.arranged.exponentSum_root q n
  dsimp only at hne hsum
  omega

theorem isInt32_emod_root {q : Rat} {n : Nat} {k : Int}
    (hx : (.root q n, k) ∈ Monomial.collectFactors (m.factors ++ l.factors)) :
    Width.isInt32 (k % n) = true := by
  have hk := exponent_root_collected hm hl hx
  obtain ⟨j, rfl⟩ := Int.eq_ofNat_of_zero_le (by omega : 0 ≤ k)
  have hle := Nat.mod_le j n
  rw [← Int.natCast_mod]
  simp only [Width.isInt32, decide_eq_true_eq]
  omega

/-- What is left under the root with an index divides the product of the radicands. -/
theorem exists_restProduct_collected {n : Nat} :
    ∃ r s : Nat, 0 < r ∧
      restProduct n (radicandsOf n (Monomial.collectFactors (m.factors ++ l.factors))) = r ∧
      m.radicand n * l.radicand n = r * s := by
  have hradicands : ∀ x ∈ radicandsOf n (Monomial.collectFactors (m.factors ++ l.factors)),
      (∃ u : Nat, 0 < u ∧ x.1 = u) ∧ 0 ≤ x.2 ∧ Width.isInt32 (x.2 % n) = true := by
    intro x hx
    have hmem := mem_radicandsOf.1 hx
    obtain ⟨hn, ⟨u, hu, hq⟩, -⟩ := isSurd_of_mem_collected hm hl hmem
    have hk := exponent_root_collected hm hl hmem
    exact ⟨⟨u, by omega, hq⟩, by omega, isInt32_emod_root hm hl hmem⟩
  have hne : ∀ x ∈ m.factors ++ l.factors, radicandAt n x.1 ≠ 0 := by
    rintro ⟨a, k⟩ hx
    have hsurd := isSurd_of_mem_append hm hl hx
    cases a with
    | root q j =>
      obtain ⟨-, ⟨u, hu, rfl⟩, -⟩ := hsurd
      rw [radicandAt]
      split
      · exact_mod_cast (by omega : u ≠ 0)
      · exact one_ne_zero
    | _ => exact one_ne_zero
  obtain ⟨r, s, hr, hs⟩ := exists_restProduct_of_nonneg hradicands
  rw [← factorsValue_radicandAt, Monomial.factorsValue_collectFactors hne,
    Monomial.factorsValue_append] at hs
  have hpos := restProduct_pos (n := n) fun x hx => by
    obtain ⟨⟨u, hu, hq⟩, -⟩ := hradicands x hx
    rw [hq]
    exact_mod_cast hu
  exact ⟨r, s, by rw [hr] at hpos; exact_mod_cast hpos, hr, hs⟩

/-- The roots that stay. -/
theorem radicand_of_mem_kept {power : Form → Int → Option Form} {q : Rat} {n : Nat} {k : Int}
    (h : (.root q n, k) ∈
      (shares power (Monomial.collectFactors (m.factors ++ l.factors))).flatMap Share.kept) :
    k = 1 ∧ (Atom.root q n).IsSurd ∧ ∃ j : Nat, m.radicand n * l.radicand n = q * j := by
  rcases exists_of_mem_kept h with ⟨⟨a, i⟩, -, hx⟩ | ⟨n', hn', hx⟩
  · -- the share of a factor that is a root keeps nothing
    have hatom := atom_of_mem_kept_share hx
    dsimp only at hatom
    subst hatom
    cases hx
  · obtain ⟨heq, hone⟩ := eq_of_mem_kept_rootShare hx
    obtain ⟨hroot, rfl⟩ := Prod.mk.inj heq
    obtain ⟨rfl, rfl⟩ := Atom.root.inj hroot
    obtain ⟨p, i, hmem⟩ := mem_rootIndices.1 hn'
    obtain ⟨hn, -, -⟩ := isSurd_of_mem_collected hm hl hmem
    obtain ⟨r, s, hr, hrest, hs⟩ := exists_restProduct_collected hm hl (n := n)
    obtain ⟨u, hu, j, hj⟩ := PerfectPower.exists_extract_eq hr n
    have hsame := PerfectPower.extractWith_extractWith PerfectPower.estimate
      (restProduct n (radicandsOf n (Monomial.collectFactors (m.factors ++ l.factors)))) n
    rw [hrest] at hone hsame ⊢
    change extract (extract r n).2 n = (1, (extract r n).2) at hsame
    rw [hu] at hone hsame ⊢
    have hupos : 0 < u := Nat.pos_of_dvd_of_pos ⟨j, hj⟩ hr
    have hune : u ≠ 1 := by exact_mod_cast hone
    refine ⟨rfl, ⟨hn, ⟨u, by omega, rfl⟩, hsame⟩, j * s, ?_⟩
    rw [hs, hj]
    push_cast
    ring

/-- The factors that stay of a product of two terms. -/
theorem isSurd_kept (power : Form → Int → Option Form) :
    let k : Monomial := ⟨Monomial.collectFactors
      ((shares power (Monomial.collectFactors (m.factors ++ l.factors))).flatMap Share.kept)⟩
    k.IsSurd ∧ m.MergesTo l k := by
  have hpairwise := pairwise_kept power (Monomial.sorted_collectFactors (m.factors ++ l.factors))
  intro k
  have hmem : ∀ x ∈ k.factors, x.2 ≠ 0 ∧
      x ∈ (shares power (Monomial.collectFactors (m.factors ++ l.factors))).flatMap Share.kept :=
    fun x hx => (Monomial.mem_collectFactors_of_pairwise hpairwise).1 hx
  have hatom : ∀ x ∈ k.factors, x.1.IsSurd := by
    intro x hx
    rcases exists_of_mem_kept (hmem x hx).2 with ⟨y, hy, hxs⟩ | ⟨n, -, hxs⟩
    · rw [atom_of_mem_kept_share hxs]
      exact isSurd_of_mem_collected hm hl hy
    · have hroot := (hmem x hx).2
      rw [(eq_of_mem_kept_rootShare hxs).1] at hroot ⊢
      exact (radicand_of_mem_kept hm hl hroot).2.1
  have harranged : k.Arranged := by
    refine ⟨Monomial.sorted_collectFactors _, fun x hx => ?_, fun hq hr => ?_⟩
    · obtain ⟨hne, hkept⟩ := hmem x hx
      have hsurd := hatom x hx
      obtain ⟨a, i⟩ := x
      cases a with
      | imaginaryUnit => exact exponent_of_mem_kept hkept rfl
      | root q n => exact (radicand_of_mem_kept hm hl hkept).1
      | symbol | pi | e => exact hne
      | _ => exact hsurd.elim
    · rw [root_of_mem_kept (hmem _ hq).2, root_of_mem_kept (hmem _ hr).2]
  refine ⟨⟨harranged, hatom⟩, fun n => ?_⟩
  by_cases hroot : ∃ q i, (.root q n, i) ∈ k.factors
  · obtain ⟨q, i, hi⟩ := hroot
    rw [harranged.radicand_eq hi]
    exact (radicand_of_mem_kept hm hl (hmem _ hi).2).2.2
  · rw [Monomial.radicand_eq_one fun q i hi => hroot ⟨q, i, hi⟩]
    obtain ⟨u, -, hu⟩ := hm.exists_radicand n
    obtain ⟨w, -, hw⟩ := hl.exists_radicand n
    exact ⟨u * w, by rw [hu, hw]; push_cast; ring⟩

/-- The product of two terms is a term. -/
theorem over_mulTermWith_surd (n : Nat) (q r : Rat) :
    (mulTermWith (normalize n) (m, q) (l, r)).Over fun k => k.IsSurd ∧ m.MergesTo l k := by
  have hone : ∀ {m : Monomial}, m.isOne = true → m = Monomial.one := by
    rintro ⟨factors⟩ h
    exact congrArg Monomial.mk (List.isEmpty_iff.1 h)
  unfold mulTermWith
  dsimp only
  split
  · next h =>
    refine over_ofTerm ⟨hm, fun n => ⟨1, ?_⟩⟩ _
    rw [hone h, Monomial.radicand_one, Nat.cast_one]
  · split
    · next h =>
      refine over_ofTerm ⟨hl, fun n => ⟨1, ?_⟩⟩ _
      rw [hone h, Monomial.radicand_one, Nat.cast_one, mul_comm]
    · by_cases hc : q * r = 0
      · rw [hc, normalize_zero_coefficient]
        exact over_zero _
      · obtain ⟨power, -, heq⟩ := exists_normalize_eq
          (fun x hx => stable_of_isSurd hm hl hx) hc n
        rw [heq]
        exact over_ofTerm (isSurd_kept hm hl power) _

/-- Valuations admit the product of two terms where the exponents fit 32 bits. -/
theorem InRange.admits_surd {K : Type*} [Field K] {v : Valuation K}
    (hv : ∀ a : Atom, a.IsBasic → v a ≠ 0) {c : Rat}
    (h : InRange c (m.factors ++ l.factors)) (n : Nat) :
    NormalizeWithin v.Admits n c (m.factors ++ l.factors) := by
  refine normalizeWithin_of_stable ⟨fun x hx => ?_, fun x hx => ?_, fun x hx => ?_⟩
    (fun x hx => stable_of_isSurd hm hl hx) n c
  · have hsurd := isSurd_of_mem_append hm hl hx
    obtain ⟨a, k⟩ := x
    cases a with
    | root q n =>
      obtain ⟨hn, ⟨u, hu, rfl⟩, -⟩ := hsurd
      exact ⟨by exact_mod_cast (by omega : 0 < u), hn⟩
    | symbol | pi | e | imaginaryUnit => exact hv _ hsurd
    | _ => exact hsurd.elim
  · have hsurd := isSurd_of_mem_append hm hl hx
    obtain ⟨a, k⟩ := x
    cases a with
    | radical => exact hsurd.elim
    | _ => trivial
  · have hsurd := isSurd_of_mem_collected hm hl hx
    have hfits := h x hx
    obtain ⟨a, k⟩ := x
    cases a with
    | root q n => exact ⟨hfits, isInt32_emod_root hm hl hx⟩
    | symbol | pi | e | imaginaryUnit => exact hfits
    | _ => exact hsurd.elim

end Products

/-! ### Products of forms -/

variable {a b c f g : Form}

/-- The monomials of a product come from a term of each factor. -/
theorem IsSurd.over_mul (hf : f.IsSurd) (hg : g.IsSurd) : (f.mul g).Over fun k =>
    k.IsSurd ∧ ∃ s ∈ f.terms, ∃ t ∈ g.terms, s.1.MergesTo t.1 k := by
  refine over_sumAll fun h hh => ?_
  obtain ⟨s, hs, hh⟩ := List.mem_flatMap.1 hh
  obtain ⟨t, ht, rfl⟩ := List.mem_map.1 hh
  exact (over_mulTermWith_surd (hf.terms s hs).2 (hg.terms t ht).2 _ s.2 t.2).imp
    fun k hk => ⟨hk.1, s, hs, t, ht, hk.2⟩

theorem IsSurd.mul (hf : f.IsSurd) (hg : g.IsSurd) : (f.mul g).IsSurd :=
  ⟨sorted_mulWith (sorted_normalize _) f g, (hf.over_mul hg).imp fun _ hk => hk.1⟩

theorem value_mul_surd {K : Type*} [Field K] [CharZero K] {v : Valuation K}
    (hv : ∀ a : Atom, a.IsBasic → v a ≠ 0) (hf : f.IsSurd) (hg : g.IsSurd)
    (h : MulInRange f g) : (f.mul g).value v = f.value v * g.value v :=
  value_mul fun s hs t ht hs1 ht1 =>
    (h s hs t ht hs1 ht1).admits_surd (hf.terms s hs).2 (hg.terms t ht).2 hv _

/-- Exponents stay in range while three forms are multiplied in both orders. -/
structure TriplesInRange (a b c : Form) : Prop where
  /-- The product of the first two. -/
  left : MulInRange a b
  /-- The product of that and the third. -/
  leftLast : MulInRange (a.mul b) c
  /-- The product of the last two. -/
  right : MulInRange b c
  /-- The product of the first and that. -/
  rightFirst : MulInRange a (b.mul c)

/-- Multiplication is associative where nothing is left in the radicands of the results that could be
extracted. -/
theorem mul_mul_of_powerFree (ha : a.IsSurd) (hb : b.IsSurd) (hc : c.IsSurd)
    (hrange : TriplesInRange a b c) (hl : ((a.mul b).mul c).Over Monomial.PowerFree)
    (hr : (a.mul (b.mul c)).Over Monomial.PowerFree) : (a.mul b).mul c = a.mul (b.mul c) := by
  have hleft := (ha.mul hb).mul hc
  have hright := ha.mul (hb.mul hc)
  have hne := (1 : Assignment).valuation_ne_zero
  refine eq_of_sub_eq_zero (eq_zero_of_value_twist (v := (1 : Assignment).valuation)
    (hleft.sorted.sub hright.sorted) (fun t ht => ?_) fun t => ?_)
  · obtain ⟨hq, hfree⟩ := (hl.sub hr) t ht
    obtain ⟨-, hsurd⟩ := (hleft.terms.sub hright.terms) t ht
    refine ⟨hq, hfree, Monomial.factorsValue_ne_zero fun x hx => ?_⟩
    have hx' := hsurd.atoms x hx
    obtain ⟨a, k⟩ := x
    cases a with
    | root q n =>
      obtain ⟨hn, ⟨u, hu, rfl⟩, -⟩ := hx'
      exact Valuation.root_ne_zero _ (by exact_mod_cast (by omega : 0 < u)) hn
    | symbol | pi | e | imaginaryUnit => exact hne _ hx'
    | _ => exact hx'.elim
  · have hv : ∀ a : Atom, a.IsBasic → (1 : Assignment).valuation.twist t a ≠ 0 :=
      fun a ha => mul_ne_zero (hne a ha) (t a).ne_zero
    rw [value_sub, value_mul_surd hv (ha.mul hb) hc hrange.leftLast,
      value_mul_surd hv ha hb hrange.left, value_mul_surd hv ha (hb.mul hc) hrange.rightFirst,
      value_mul_surd hv hb hc hrange.right, mul_assoc, sub_self]

/-! ### Small radicands -/

/-- The products of the radicands of an index in a term of each form fit 128 bits, and no prime that
is not tried divides one of them as often as the index says. -/
def SmallRadicands (a b c : Form) : Prop :=
  ∀ s ∈ a.terms, ∀ t ∈ b.terms, ∀ u ∈ c.terms, ∀ n : Nat, 2 ≤ n →
    ∃ r : Nat, s.1.radicand n * t.1.radicand n * u.1.radicand n = r ∧ r < 2 ^ 127 ∧
      ∀ p : Nat, p.Prime → trialLimit ≤ p → ¬ p ^ n ∣ r

/-- A radicand that divides a small one is free of perfect powers if nothing can be extracted from
it. -/
theorem powerFree_of_small (hm : m.IsSurd)
    (h : ∀ n : Nat, 2 ≤ n → ∃ r j : Nat, 0 < r ∧ (r : Rat) = m.radicand n * j ∧ r < 2 ^ 127 ∧
      ∀ p : Nat, p.Prime → trialLimit ≤ p → ¬ p ^ n ∣ r) : m.PowerFree := by
  refine ⟨hm.arranged, fun {q n k} hmem => ?_⟩
  obtain ⟨hn, ⟨u, hu, rfl⟩, hextract⟩ := hm.atoms _ hmem
  obtain ⟨r, j, hr, hrj, hfits, hlarge⟩ := h n hn
  rw [hm.arranged.radicand_eq hmem] at hrj
  have hdvd : u ∣ r := ⟨j, by exact_mod_cast hrj⟩
  refine ⟨hn, u, rfl, hu, fun p hp hpu => ?_⟩
  rcases lt_or_ge p trialLimit with hlt | hge
  · exact PerfectPower.not_pow_dvd_of_extract_eq hu ((Nat.le_of_dvd hr hdvd).trans_lt hfits) hn
      hextract hp hlt hpu
  · exact hlarge p hp hge (hpu.trans hdvd)

theorem SmallRadicands.powerFree_left (h : SmallRadicands a b c) (ha : a.IsSurd) (hb : b.IsSurd)
    (hc : c.IsSurd) : ((a.mul b).mul c).Over Monomial.PowerFree := by
  intro k hk
  obtain ⟨hne, hsurd, p, hp, u, hu, hlast⟩ := (ha.mul hb).over_mul hc k hk
  obtain ⟨-, -, s, hs, t, ht, hfirst⟩ := ha.over_mul hb p hp
  refine ⟨hne, powerFree_of_small hsurd fun n hn => ?_⟩
  obtain ⟨r, hr, hfits, hlarge⟩ := h s hs t ht u hu n hn
  obtain ⟨i, hi⟩ := hfirst n
  obtain ⟨j, hj⟩ := hlast n
  refine ⟨r, j * i, ?_, ?_, hfits, hlarge⟩
  · obtain ⟨x, hx, hx'⟩ := (ha.terms s hs).2.exists_radicand n
    obtain ⟨y, hy, hy'⟩ := (hb.terms t ht).2.exists_radicand n
    obtain ⟨z, hz, hz'⟩ := (hc.terms u hu).2.exists_radicand n
    rw [hx', hy', hz'] at hr
    have hr' : x * y * z = r := by exact_mod_cast hr
    exact hr' ▸ Nat.mul_pos (Nat.mul_pos hx hy) hz
  · push_cast
    linear_combination -hr + u.1.radicand n * hi + (i : Rat) * hj

theorem SmallRadicands.rotate (h : SmallRadicands a b c) : SmallRadicands b c a := by
  intro t ht u hu s hs n hn
  obtain ⟨r, hr, hrest⟩ := h s hs t ht u hu n hn
  exact ⟨r, by rw [← hr]; ring, hrest⟩

/-- **Multiplication of surds is associative**, where nothing is left in the radicands of the results
that could be extracted; and nothing is left where the radicands are small. -/
theorem IsSurd.associative (ha : a.IsSurd) (hb : b.IsSurd) (hc : c.IsSurd)
    (hrange : TriplesInRange a b c) :
    (((a.mul b).mul c).Over Monomial.PowerFree → (a.mul (b.mul c)).Over Monomial.PowerFree →
      (a.mul b).mul c = a.mul (b.mul c)) ∧
    (SmallRadicands a b c → (a.mul b).mul c = a.mul (b.mul c)) := by
  refine ⟨mul_mul_of_powerFree ha hb hc hrange, fun hsmall => ?_⟩
  have hright := hsmall.rotate.powerFree_left hb hc ha
  rw [mul_eq_mul] at hright
  exact mul_mul_of_powerFree ha hb hc hrange (hsmall.powerFree_left ha hb hc) hright

/-- Radicands are small where their products are below the square of the trial limit. -/
theorem smallRadicands_of_lt (h : ∀ s ∈ a.terms, ∀ t ∈ b.terms, ∀ u ∈ c.terms, ∀ n : Nat, 2 ≤ n →
    ∃ r : Nat, s.1.radicand n * t.1.radicand n * u.1.radicand n = r ∧ 0 < r ∧
      r < trialLimit ^ 2) : SmallRadicands a b c := by
  intro s hs t ht u hu n hn
  obtain ⟨r, hr, hpos, hlt⟩ := h s hs t ht u hu n hn
  refine ⟨r, hr, hlt.trans (by decide), fun p hp hge hdvd => ?_⟩
  have hle : trialLimit ^ 2 ≤ r :=
    calc trialLimit ^ 2 ≤ p ^ 2 := Nat.pow_le_pow_left hge 2
      _ ≤ p ^ n := Nat.pow_le_pow_right hp.pos hn
      _ ≤ r := Nat.le_of_dvd hpos hdvd
  omega

/-! ### Square roots -/

/-- The square root of a number. -/
def squareRoot (q : Rat) : Form := ⟨[(⟨[(.root q 2, 1)]⟩, 1)]⟩

theorem isSurd_squareRoot {u : Nat} (hu : 1 < u) (h : extract u 2 = (1, (u : Rat))) :
    (squareRoot u).IsSurd := by
  have hatom : (Atom.root u 2).IsSurd := ⟨le_rfl, ⟨u, hu, rfl⟩, h⟩
  refine ⟨List.pairwise_singleton _ _, fun t ht => ?_⟩
  rw [List.mem_singleton.1 ht]
  exact ⟨one_ne_zero, Monomial.arranged_singleton rfl, List.forall_mem_singleton.2 hatom⟩

theorem radicand_squareRoot (q : Rat) (n : Nat) :
    Monomial.radicand ⟨[(.root q 2, 1)]⟩ n = if n = 2 then q else 1 := by
  by_cases hn : n = 2
  · simp [Monomial.radicand, Monomial.factorsValue, radicandAt, hn]
  · simp [Monomial.radicand, Monomial.factorsValue, radicandAt, hn, Ne.symm hn]

theorem isSurd_one : one.IsSurd := ⟨sorted_ofTerm _ _, over_ofRat Monomial.isSurd_one 1⟩

theorem IsSurd.add (hf : f.IsSurd) (hg : g.IsSurd) : (f.add g).IsSurd :=
  ⟨hf.sorted.add hg.sorted, hf.terms.add hg.terms⟩

/-- The square roots of two and three, and one plus the square root of six. -/
theorem associative_squareRoots :
    ((squareRoot 2).mul (one.add (squareRoot 6))).mul (squareRoot 3) =
      (squareRoot 2).mul ((one.add (squareRoot 6)).mul (squareRoot 3)) := by
  have htwo : (squareRoot 2).IsSurd := isSurd_squareRoot (u := 2) (by decide) (by decide +kernel)
  have hthree : (squareRoot 3).IsSurd := isSurd_squareRoot (u := 3) (by decide) (by decide +kernel)
  have hsix : (squareRoot 6).IsSurd := isSurd_squareRoot (u := 6) (by decide) (by decide +kernel)
  refine (IsSurd.associative htwo (isSurd_one.add hsix) hthree ⟨by decide +kernel, by decide +kernel,
    by decide +kernel, by decide +kernel⟩).2 (smallRadicands_of_lt ?_)
  have hterms : (one.add (squareRoot 6)).terms = [(⟨[]⟩, 1), (⟨[(.root 6 2, 1)]⟩, 1)] := by
    decide +kernel
  intro s hs t ht u hu n _
  obtain rfl := List.mem_singleton.1 hs
  obtain rfl := List.mem_singleton.1 hu
  dsimp only
  rw [radicand_squareRoot, radicand_squareRoot]
  rw [hterms] at ht
  rcases List.mem_cons.1 ht with rfl | ht
  · refine ⟨if n = 2 then 6 else 1, ?_, by split <;> decide, by split <;> decide⟩
    change _ * Monomial.one.radicand n * _ = _
    rw [Monomial.radicand_one]
    split <;> norm_num
  · obtain rfl := List.mem_singleton.1 ht
    refine ⟨if n = 2 then 36 else 1, ?_, by split <;> decide, by split <;> decide⟩
    rw [radicand_squareRoot]
    split <;> norm_num

/-- Beyond 128 bits the order of multiplication shows. -/
theorem exists_mul_mul_ne : ∃ a b c : Form, a.IsSurd ∧ b.IsSurd ∧ c.IsSurd ∧
    TriplesInRange a b c ∧ (a.mul b).mul c ≠ a.mul (b.mul c) := by
  have hlarge : (squareRoot (2 ^ 127 : Nat)).IsSurd :=
    isSurd_squareRoot (by decide) (by decide +kernel)
  have htwo : (squareRoot 2).IsSurd := isSurd_squareRoot (u := 2) (by decide) (by decide +kernel)
  exact ⟨_, _, _, hlarge, htwo, htwo, ⟨by decide +kernel, by decide +kernel, by decide +kernel,
    by decide +kernel⟩, by decide +kernel⟩

end Form

end Resolvent

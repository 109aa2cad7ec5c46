import Resolvent.Proofs.Form.Numbers

/-!
# Monomials that normalisation leaves alone

The shares of the factors of a monomial are these factors again (`Monomial.KeptBy`) when they are in
order, the roots are merged into one for each index, and each other factor is its own share.  The
term that stays of them is then made of the monomial itself (`Monomial.KeptBy.sharedTerm_eq`).

A monomial is settled (`Monomial.Settled`) when its factors are arranged, nothing can be extracted
from its roots, its exponents are words, and nothing is multiplied out of its radicals and
reciprocals.  The product of its factors, in whatever order, is then normalised to the monomial
itself (`Form.normalize_of_settled`).  Parts of settled monomials are settled.
-/

namespace Resolvent

/-- Normalisation leaves the product of the factors alone. -/
structure Monomial.Settled (m : Monomial) : Prop where
  /-- The factors are arranged. -/
  arranged : m.Arranged
  /-- Roots are of numbers other than one, from which nothing can be extracted. -/
  roots : ∀ {q : Rat} {n : Nat} {k : Int}, (.root q n, k) ∈ m.factors →
    q ≠ 1 ∧ PerfectPower.extract q n = (1, q) ∧ 2 ≤ n
  /-- Exponents are words. -/
  words : ∀ x ∈ m.factors, Width.isInt32 x.2 = true
  /-- Nothing is multiplied out. -/
  stable : ∀ x ∈ m.factors, Form.Stable x

/-- The roots are merged into one for each index, from which nothing more can be extracted. -/
structure Monomial.RootsMerged (m : Monomial) : Prop where
  /-- Roots have the exponent one. -/
  exponent : ∀ {q : Rat} {n : Nat} {k : Int}, (.root q n, k) ∈ m.factors → k = 1
  /-- Roots are of numbers other than one, from which nothing can be extracted. -/
  free : ∀ {q : Rat} {n : Nat} {k : Int}, (.root q n, k) ∈ m.factors →
    q ≠ 1 ∧ PerfectPower.extract q n = (1, q) ∧ n ≠ 1
  /-- Two roots have different indices. -/
  unique : ∀ {q r : Rat} {n : Nat} {k l : Int},
    (.root q n, k) ∈ m.factors → (.root r n, l) ∈ m.factors → q = r

/-- The shares of the factors are these factors, given how forms are raised to powers. -/
structure Monomial.KeptBy (power : Form → Int → Option Form) (m : Monomial) : Prop where
  /-- The atoms are in order. -/
  sorted : Sorted m.factors
  /-- No exponent is zero. -/
  ne_zero : ∀ x ∈ m.factors, x.2 ≠ 0
  /-- The roots are merged. -/
  roots : m.RootsMerged
  /-- Other factors stay as they are. -/
  share : ∀ x ∈ m.factors, (∀ q n, x.1 ≠ .root q n) →
    (Form.share power x).kept = [x] ∧ (Form.share power x).coefficient = 1

namespace Monomial

variable {m : Monomial}

/-! ### Factors in order -/

theorem eq_of_sorted {xs ys : List (Atom × Int)} (hxs : Sorted xs) (hys : Sorted ys)
    (h : ∀ x, x ∈ xs ↔ x ∈ ys) : xs = ys := by
  have hnodup : ∀ {zs : List (Atom × Int)}, Sorted zs → zs.Nodup := fun hzs =>
    hzs.pairwise_ne.imp fun hne heq => hne (congrArg Prod.fst heq)
  refine List.Perm.eq_of_pairwise (fun x y _ _ hxy hyx => ?_) hxs hys
    ((List.perm_ext_iff_of_nodup (hnodup hxs) (hnodup hys)).2 h)
  rw [← Atom.order_gt_iff, hxy] at hyx
  cases hyx

theorem ne_zero_of_exponentFits {x : Atom × Int} (h : ExponentFits x) : x.2 ≠ 0 := by
  obtain ⟨a, k⟩ := x
  cases a with
  | imaginaryUnit => exact (show k = 1 from h) ▸ one_ne_zero
  | root q n => exact (show k = 1 from h) ▸ one_ne_zero
  | radical f n => exact (show 0 < k ∧ k < n from h).1.ne'
  | _ => exact h

theorem exponentSum_of_perm {xs ys : List (Atom × Int)} (h : xs.Perm ys) (a : Atom) :
    exponentSum a xs = exponentSum a ys := (h.map _).sum_eq

/-- Factors that are those of an arranged monomial in some order are collected to these. -/
theorem Arranged.collectFactors_of_perm {factors : List (Atom × Int)} (hm : m.Arranged)
    (h : factors.Perm m.factors) : collectFactors factors = m.factors := by
  refine eq_of_sorted (sorted_collectFactors _) hm.sorted fun x => ?_
  rw [mem_collectFactors, exponentSum_of_perm h]
  constructor
  · rintro ⟨hne, hsum⟩
    exact (mem_iff_exponentSum hm.sorted.pairwise_ne hne).2 hsum
  · intro hx
    exact ⟨ne_zero_of_exponentFits (hm.exponents x hx),
      exponentSum_eq_of_mem hm.sorted.pairwise_ne hx⟩

theorem Arranged.of_sublist {factors : List (Atom × Int)} (hm : m.Arranged)
    (h : factors.Sublist m.factors) : Arranged ⟨factors⟩ :=
  ⟨hm.sorted.sublist h, fun x hx => hm.exponents x (h.subset hx),
    fun hq hr => hm.roots (h.subset hq) (h.subset hr)⟩

/-- Parts of settled monomials are settled. -/
theorem Settled.of_sublist {factors : List (Atom × Int)} (hm : m.Settled)
    (h : factors.Sublist m.factors) : Settled ⟨factors⟩ :=
  ⟨hm.arranged.of_sublist h, fun hx => hm.roots (h.subset hx),
    fun x hx => hm.words x (h.subset hx), fun x hx => hm.stable x (h.subset hx)⟩

theorem Settled.without (hm : m.Settled) (a : Atom) : (m.without a).Settled :=
  hm.of_sublist List.filter_sublist

end Monomial

namespace Form

variable {m : Monomial} {x : Atom × Int}

/-! ### Shares of settled factors -/

theorem isRoot_or (x : Atom × Int) :
    (∃ q n k, x = (.root q n, k)) ∨ ∀ q n, x.1 ≠ .root q n := by
  by_cases hroot : ∃ q n, x.1 = .root q n
  · obtain ⟨q, n, hroot⟩ := hroot
    exact .inl ⟨q, n, x.2, Prod.ext hroot rfl⟩
  · exact .inr fun q n h => hroot ⟨q, n, h⟩

/-- The share of a factor that is settled and no root is the factor. -/
theorem share_of_settled {power : Form → Int → Option Form} (hpower : PowerLimited power)
    (hm : m.Settled) (hx : x ∈ m.factors) (hroot : ∀ q n, x.1 ≠ .root q n) :
    (share power x).kept = [x] ∧ (share power x).coefficient = 1 := by
  have hfits := hm.arranged.exponents x hx
  have hword := hm.words x hx
  have hstable := hm.stable x hx
  obtain ⟨a, k⟩ := x
  cases a with
  | imaginaryUnit =>
    obtain rfl : k = 1 := hfits
    exact ⟨rfl, rfl⟩
  | root q n => exact absurd rfl (hroot q n)
  | radical f n =>
    have hfits : 0 < k ∧ k < n := hfits
    have hrest : k % (n : Int) = k := Int.emod_eq_of_lt hfits.1.le hfits.2
    simp only [share, radicalShare]
    split
    · simp [hrest, hfits.1.ne', clamp32_eq hword]
    · simp [clamp32_eq hword]
  | reciprocal f =>
    simp only [share, reciprocalShare]
    split
    · next hneg =>
      -- a negative power that stays is beyond the limit
      have hlarge : (maxExpandedPower : Int) < -k := hstable hneg
      rw [hpower f (-k) hlarge]
      simp [clamp32_eq hword]
    · simp [clamp32_eq hword]
  | _ => simp [share, clamp32_eq hword]

end Form

namespace Monomial

open Form

variable {m : Monomial} {x : Atom × Int} {power : Form → Int → Option Form}

theorem RootsMerged.radicandsOf_eq (hm : m.RootsMerged) (hsorted : Sorted m.factors) {q : Rat}
    {n : Nat} {k : Int} (hx : (.root q n, k) ∈ m.factors) :
    radicandsOf n m.factors = [(q, 1)] := by
  have hmem : ∀ y, y ∈ radicandsOf n m.factors ↔ y = (q, 1) := by
    rintro ⟨r, l⟩
    rw [mem_radicandsOf]
    constructor
    · intro hy
      rw [hm.exponent hy, hm.unique hy hx]
    · intro hy
      obtain ⟨rfl, rfl⟩ := Prod.mk.inj hy
      exact hm.exponent hx ▸ hx
  have hnodup : (radicandsOf n m.factors).Nodup := by
    refine List.Nodup.filterMap (fun ⟨a, k⟩ ⟨b, l⟩ r hx hy => ?_)
      (hsorted.pairwise_ne.imp fun hne heq => hne (congrArg Prod.fst heq))
    cases a <;> cases b <;> simp at hx hy
    obtain ⟨rfl, rfl⟩ := hx
    obtain ⟨rfl, hy⟩ := hy
    simp_all
  have hperm := (List.perm_ext_iff_of_nodup hnodup (List.nodup_singleton (q, 1))).2 fun y =>
    (hmem y).trans List.mem_singleton.symm
  exact List.perm_singleton.1 hperm

theorem RootsMerged.rootShare_eq (hm : m.RootsMerged) (hsorted : Sorted m.factors) {q : Rat}
    {n : Nat} {k : Int} (hx : (.root q n, k) ∈ m.factors) :
    rootShare m.factors n = { kept := [(.root q n, 1)] } := by
  obtain ⟨hone, hextract, hn⟩ := hm.free hx
  -- an exponent of one is no multiple of the index, also where that is zero
  have hwhole : (1 : Int) / n = 0 := by
    rcases Nat.eq_zero_or_pos n with rfl | hpos
    · exact Int.ediv_zero 1
    · exact Int.ediv_eq_zero_of_lt (by omega) (by omega)
  have hrest : (1 : Int) % n = 1 := by
    have := Int.mul_ediv_add_emod 1 n
    rw [hwhole] at this
    omega
  rw [Form.rootShare_eq, hm.radicandsOf_eq hsorted hx]
  simp [wholeProduct, restProduct, wholePower, restPower, hwhole, hrest, Width.isInt32, hextract,
    hone, Rational.power?, Rat.pow]

namespace KeptBy

/-- The shares of factors that stay as they are are these factors. -/
theorem mem_kept (hm : m.KeptBy power) :
    x ∈ (shares power m.factors).flatMap Share.kept ↔ x ∈ m.factors := by
  rw [List.mem_flatMap]
  constructor
  · rintro ⟨s, hs, hx⟩
    rcases mem_shares hs with ⟨y, hy, rfl⟩ | ⟨n, hn, rfl⟩
    · obtain ⟨q, n, k, rfl⟩ | hroot := isRoot_or y
      · cases hx
      · rw [(hm.share y hy hroot).1] at hx
        rwa [List.mem_singleton.1 hx]
    · obtain ⟨q, k, hq⟩ := mem_rootIndices.1 hn
      rw [hm.roots.rootShare_eq hm.sorted hq] at hx
      obtain rfl : k = 1 := hm.roots.exponent hq
      rwa [List.mem_singleton.1 hx]
  · intro hx
    obtain ⟨q, n, k, rfl⟩ | hroot := isRoot_or x
    · obtain rfl : k = 1 := hm.roots.exponent hx
      refine ⟨rootShare m.factors n, List.mem_append_right _
        (List.mem_map_of_mem (mem_rootIndices.2 ⟨q, 1, hx⟩)), ?_⟩
      rw [hm.roots.rootShare_eq hm.sorted hx]
      exact List.mem_singleton_self _
    · refine ⟨Form.share power x, List.mem_append_left _ (List.mem_map_of_mem hx), ?_⟩
      rw [(hm.share x hx hroot).1]
      exact List.mem_singleton_self _

theorem coefficient_eq_one (hm : m.KeptBy power) {s : Share} (hs : s ∈ shares power m.factors) :
    s.coefficient = 1 := by
  rcases mem_shares hs with ⟨y, hy, rfl⟩ | ⟨n, hn, rfl⟩
  · obtain ⟨q, n, k, rfl⟩ | hroot := isRoot_or y
    · rfl
    · exact (hm.share y hy hroot).2
  · obtain ⟨q, k, hq⟩ := mem_rootIndices.1 hn
    rw [hm.roots.rootShare_eq hm.sorted hq]

/-- The term that stays of factors that stay as they are is made of them. -/
theorem sharedTerm_eq (hm : m.KeptBy power) (c : Rat) :
    sharedTerm c (shares power m.factors) = ofTerm m c := by
  have hkept : collectFactors ((shares power m.factors).flatMap Share.kept) = m.factors := by
    refine eq_of_sorted (sorted_collectFactors _) hm.sorted fun x => ?_
    rw [mem_collectFactors_of_pairwise (pairwise_kept power hm.sorted), hm.mem_kept]
    exact ⟨fun h => h.2, fun h => ⟨hm.ne_zero x h, h⟩⟩
  have hone : ((shares power m.factors).map Share.coefficient).prod = 1 :=
    List.prod_eq_one fun q hq => by
      obtain ⟨s, hs, rfl⟩ := List.mem_map.1 hq
      exact hm.coefficient_eq_one hs
  rw [sharedTerm, hkept, sharedCoefficient_eq, hone, mul_one]
  cases m
  rfl

end KeptBy

theorem Settled.keptBy (hpower : PowerLimited power) (hm : m.Settled) : m.KeptBy power where
  sorted := hm.arranged.sorted
  ne_zero := fun x hx => ne_zero_of_exponentFits (hm.arranged.exponents x hx)
  roots := ⟨fun hx => hm.arranged.exponents _ hx, fun hx =>
    have ⟨hone, hextract, hn⟩ := hm.roots hx
    ⟨hone, hextract, by omega⟩, hm.arranged.roots⟩
  share := fun _ => share_of_settled hpower hm

end Monomial

namespace Form

variable {m : Monomial}

/-- Factors that are collected to those of a settled monomial are normalised to it. -/
theorem normalize_of_collectFactors {factors : List (Atom × Int)} (hm : m.Settled)
    (h : Monomial.collectFactors factors = m.factors) (n : Nat) (c : Rat) :
    normalize n c factors = ofTerm m c := by
  by_cases hc : c = 0
  · rw [hc, normalize_zero_coefficient, ofTerm, if_pos rfl]
  · obtain ⟨power, hlimited, hpower⟩ := exists_normalize_eq
      (fun x hx => hm.stable x (h ▸ hx)) hc n
    rw [hpower, h, (hm.keptBy hlimited).sharedTerm_eq]

/-- **Normalisation leaves settled monomials alone.** -/
theorem normalize_of_settled {factors : List (Atom × Int)} (hm : m.Settled)
    (h : factors.Perm m.factors) (n : Nat) (c : Rat) : normalize n c factors = ofTerm m c :=
  normalize_of_collectFactors hm (hm.arranged.collectFactors_of_perm h) n c

/-! ### Products of terms -/

theorem ofTerm_eq {q : Rat} (hq : q ≠ 0) (m : Monomial) : ofTerm m q = ⟨[(m, q)]⟩ := if_neg hq

/-- The product of two terms whose factors together are settled. -/
theorem mulWith_ofTerm {xs ys zs : List (Atom × Int)} (hxs : Monomial.Sorted xs)
    (hys : Monomial.Sorted ys) (hzs : Monomial.Settled ⟨zs⟩) (h : (xs ++ ys).Perm zs) (n : Nat)
    (c d : Rat) :
    mulWith (normalize n) (ofTerm ⟨xs⟩ c) (ofTerm ⟨ys⟩ d) = ofTerm ⟨zs⟩ (c * d) := by
  by_cases hc : c = 0
  · simp [hc, ofTerm, zero, mulWith, sumAll, sumLoop]
  by_cases hd : d = 0
  · simp [hd, ofTerm, hc, zero, mulWith, sumAll, sumLoop]
  have hterm : mulTermWith (normalize n) (⟨xs⟩, c) (⟨ys⟩, d) = ofTerm ⟨zs⟩ (c * d) := by
    unfold mulTermWith
    dsimp only
    split
    · -- where one of the two has no factors, the other has those of the product
      next hnil =>
      obtain rfl : ys = [] := List.isEmpty_iff.1 hnil
      rw [List.append_nil] at h
      rw [Monomial.eq_of_sorted hxs hzs.arranged.sorted fun x => h.mem_iff]
    · split
      · next hnil =>
        obtain rfl : xs = [] := List.isEmpty_iff.1 hnil
        rw [Monomial.eq_of_sorted hys hzs.arranged.sorted fun x => h.mem_iff]
      · exact normalize_of_settled hzs h n _
  rw [ofTerm_eq hc, ofTerm_eq hd, mulWith]
  simpa [sumAll, sumLoop] using hterm

theorem mul_ofTerm {xs ys zs : List (Atom × Int)} (hxs : Monomial.Sorted xs)
    (hys : Monomial.Sorted ys) (hzs : Monomial.Settled ⟨zs⟩) (h : (xs ++ ys).Perm zs)
    (c d : Rat) : mul (ofTerm ⟨xs⟩ c) (ofTerm ⟨ys⟩ d) = ofTerm ⟨zs⟩ (c * d) :=
  mulWith_ofTerm hxs hys hzs h _ c d

end Form

end Resolvent

import Resolvent.Proofs.Form.Constant
import Resolvent.Proofs.Form.Monomials
import Resolvent.Proofs.Form.Settled
import Resolvent.Proofs.Form.Soundness

/-!
# Forms and their terms

A form is the sum of its terms, and a term is the product of its factors: adding terms that stand in
order puts them one behind the other (`Form.sumAll_of_inOrder`), and multiplying factors that
normalisation leaves alone puts them into one monomial (`Form.normalize_of_perm`).  Such monomials
are called reduced; the atoms of a normal form whose exponents fit a word make reduced monomials.
The product of forms whose monomials stay reduced together has the product of their values, whatever
values the atoms have (`Form.value_mul_of_reducedIn`).
-/

namespace Resolvent

/-! ### Sums of terms -/

namespace Form

variable {f g : Form}

theorem mk_terms (f : Form) : (⟨f.terms⟩ : Form) = f := by cases f; rfl

/-- All terms of the first form come before those of the second. -/
def Precedes (f g : Form) : Prop := ∀ s ∈ f.terms, ∀ t ∈ g.terms, s.1.order t.1 = .lt

theorem mergeTerms_of_precedes {xs ys : List (Monomial × Rat)}
    (h : ∀ s ∈ xs, ∀ t ∈ ys, s.1.order t.1 = .lt) : mergeTerms xs ys = xs ++ ys := by
  induction xs with
  | nil => rfl
  | cons x xs ih =>
    have ih := ih fun s hs => h s (List.mem_cons_of_mem _ hs)
    obtain ⟨m, q⟩ := x
    cases ys with
    | nil => rw [mergeTerms, mergeTerm, ih]; rfl
    | cons y ys =>
      have hy := h (m, q) List.mem_cons_self y List.mem_cons_self
      rw [mergeTerms, mergeTerm, hy, ih]
      rfl

theorem Precedes.add_eq (h : f.Precedes g) : add f g = ⟨f.terms ++ g.terms⟩ :=
  congrArg Form.mk (mergeTerms_of_precedes h)

/-- A term that comes before all others may be added last. -/
theorem add_singleton_of_precedes {m : Monomial} {q : Rat}
    (h : Precedes ⟨[(m, q)]⟩ f) : add f ⟨[(m, q)]⟩ = ⟨(m, q) :: f.terms⟩ := by
  obtain ⟨terms⟩ := f
  cases terms with
  | nil => rfl
  | cons t terms =>
    obtain ⟨n, r⟩ := t
    have hgt : n.order m = .gt :=
      Monomial.order_gt_iff.2 (h (m, q) List.mem_cons_self (n, r) List.mem_cons_self)
    have hnil := add_zero ⟨(n, r) :: terms⟩
    simp only [add, zero, mergeTerms, mergeTerm, mk.injEq] at hnil ⊢
    rw [hgt, hnil]

/-- The forms stand in order: the terms of each come before those of the ones behind it. -/
abbrev InOrder (fs : List Form) : Prop := fs.Pairwise Precedes

theorem precedes_flatMap {fs : List Form} (h : ∀ g ∈ fs, f.Precedes g) :
    f.Precedes ⟨fs.flatMap Form.terms⟩ := by
  intro s hs t ht
  obtain ⟨g, hg, ht⟩ := List.mem_flatMap.1 ht
  exact h g hg s hs t ht

theorem foldl_add_of_inOrder {fs : List Form} (h : InOrder (f :: fs)) :
    fs.foldl add f = ⟨f.terms ++ fs.flatMap Form.terms⟩ := by
  induction fs generalizing f with
  | nil => simp [mk_terms]
  | cons g fs ih =>
    obtain ⟨hf, hg, hfs⟩ := by simpa using h
    rw [List.foldl_cons, hf.1.add_eq, ih]
    · simp
    · refine List.pairwise_cons.2 ⟨fun k hk s hs => ?_, hfs⟩
      rcases List.mem_append.1 hs with hs | hs
      · exact hf.2 k hk s hs
      · exact hg k hk s hs

theorem addPairs_of_inOrder {fs : List Form} (h : InOrder fs) :
    InOrder (addPairs fs) ∧ (addPairs fs).flatMap Form.terms = fs.flatMap Form.terms := by
  fun_induction addPairs fs with
  | case1 f g rest ih =>
    obtain ⟨⟨hfg, hf⟩, hg, hrest⟩ := by simpa using h
    obtain ⟨ihorder, ihterms⟩ := ih hrest
    rw [hfg.add_eq]
    refine ⟨List.pairwise_cons.2 ⟨fun k hk s hs t ht => ?_, ihorder⟩, by simp [ihterms]⟩
    -- a term of a pair is a term of one of the two
    have ht : t ∈ rest.flatMap Form.terms := ihterms ▸ List.mem_flatMap_of_mem hk ht
    rcases List.mem_append.1 hs with hs | hs
    · exact precedes_flatMap hf s hs t ht
    · exact precedes_flatMap hg s hs t ht
  | case2 => exact ⟨h, rfl⟩

/-- The sum of forms that stand in order has their terms one after the other. -/
theorem sumAll_of_inOrder {fs : List Form} (h : InOrder fs) :
    sumAll fs = ⟨fs.flatMap Form.terms⟩ := by
  unfold sumAll
  generalize fs.length = fuel
  fun_induction sumLoop fuel fs with
  | case1 => rfl
  | case2 _ f => simp [mk_terms]
  | case3 fs =>
    have hzero : InOrder (zero :: fs) :=
      List.pairwise_cons.2 ⟨fun _ _ _ hs => absurd hs List.not_mem_nil, h⟩
    exact foldl_add_of_inOrder hzero
  | case4 fuel fs _ _ ih =>
    obtain ⟨horder, hterms⟩ := addPairs_of_inOrder h
    rw [ih horder, hterms]

/-- A form is the sum of its terms, added in their order. -/
theorem sumAll_terms (h : f.Sorted) : sumAll (f.terms.map fun t => (⟨[t]⟩ : Form)) = f := by
  obtain ⟨terms⟩ := f
  rw [sumAll_of_inOrder, List.flatMap_map]
  · exact congrArg Form.mk (List.flatMap_singleton' _)
  · refine List.pairwise_map.2 (h.imp fun {s t} hst => ?_)
    simpa [Precedes] using hst

theorem foldl_add_terms (h : f.Sorted) :
    (f.terms.map fun t => (⟨[t]⟩ : Form)).foldl add zero = f := by
  have horder : InOrder (zero :: f.terms.map fun t => (⟨[t]⟩ : Form)) := by
    refine List.pairwise_cons.2 ⟨fun _ _ _ hs => absurd hs List.not_mem_nil, ?_⟩
    refine List.pairwise_map.2 (h.imp fun {s t} hst => ?_)
    simpa [Precedes] using hst
  obtain ⟨terms⟩ := f
  rw [foldl_add_of_inOrder horder, List.flatMap_map]
  exact congrArg Form.mk (List.flatMap_singleton' _)

theorem neg_ofTerm (m : Monomial) (q : Rat) : neg (ofTerm m q) = ofTerm m (-q) := by
  by_cases hq : q = 0
  · rw [hq, neg_zero]
    rfl
  · rw [ofTerm_eq hq, ofTerm_eq (neg_ne_zero.2 hq)]
    rfl

/-- The product with a constant is a multiple. -/
theorem mulWith_ofRat_right (normalize : Rat → List (Atom × Int) → Form) (h : f.Sorted)
    (hne : ∀ t ∈ f.terms, t.2 ≠ 0) (r : Rat) : mulWith normalize f (ofRat r) = f.scale r := by
  by_cases hr : r = 0
  · simp [hr, ofRat, mulWith, zero, scale, sumAll, sumLoop, List.flatMap_eq_nil_iff.2]
  · have hsorted : (f.scale r).Sorted := h.scale r
    rw [scale, if_neg hr] at hsorted ⊢
    rw [← sumAll_terms hsorted, mulWith, ofRat, if_neg hr, List.map_map]
    congr 1
    rw [List.map_eq_flatMap]
    refine List.flatMap_congr fun t ht => ?_
    simp [mulTermWith, Monomial.isOne, Monomial.one, ofTerm_eq (mul_ne_zero (hne t ht) hr)]

end Form

/-! ### Reduced monomials -/

/-- The atom and its exponent are such that normalisation leaves them alone. -/
def Monomial.FactorReduced : Atom × Int → Prop
  | (.root q n, _) => q ≠ 1 ∧ PerfectPower.extract q n = (1, q) ∧ 2 ≤ n
  | (.reciprocal _, k) => 0 < k ∧ Width.isInt32 k = true
  | (_, k) => Width.isInt32 k = true

/-- Normalisation leaves the product of the factors alone. -/
structure Monomial.Reduced (m : Monomial) : Prop where
  arranged : m.Arranged
  factors : ∀ x ∈ m.factors, FactorReduced x

namespace Monomial

variable {m : Monomial}

theorem Reduced.settled (hm : m.Reduced) : m.Settled where
  arranged := hm.arranged
  roots := fun hx => hm.factors _ hx
  words := by
    intro x hx
    have hreduced := hm.factors x hx
    obtain ⟨a, k⟩ := x
    cases a with
    | root q n =>
      obtain rfl : k = 1 := hm.arranged.exponents _ hx
      rfl
    | reciprocal f => exact hreduced.2
    | _ => exact hreduced
  stable := by
    intro x hx
    have hfits := hm.arranged.exponents x hx
    have hreduced := hm.factors x hx
    obtain ⟨a, k⟩ := x
    cases a with
    | radical f n =>
      have hfits : 0 < k ∧ k < n := hfits
      exact Int.ediv_eq_zero_of_lt hfits.1.le hfits.2
    | reciprocal f =>
      have hreduced : 0 < k ∧ Width.isInt32 k = true := hreduced
      exact fun hneg => absurd hneg (not_lt.2 hreduced.1.le)
    | _ => trivial

/-- Factors of different atoms that are left alone make a reduced monomial, once they are in
order. -/
theorem exists_reduced {factors : List (Atom × Int)}
    (hne : factors.Pairwise fun x y => x.1 ≠ y.1) (hfits : ∀ x ∈ factors, ExponentFits x)
    (hroots : ∀ {q r : Rat} {n : Nat} {k l : Int},
      (.root q n, k) ∈ factors → (.root r n, l) ∈ factors → q = r)
    (hreduced : ∀ x ∈ factors, FactorReduced x) :
    ∃ m : Monomial, m.Reduced ∧ factors.Perm m.factors := by
  have hsorted := sorted_collectFactors factors
  have hmem : ∀ x, x ∈ collectFactors factors ↔ x ∈ factors := fun x =>
    (mem_collectFactors_of_pairwise hne).trans
      ⟨fun h => h.2, fun h => ⟨ne_zero_of_exponentFits (hfits x h), h⟩⟩
  refine ⟨⟨collectFactors factors⟩, ⟨⟨hsorted, fun x hx => hfits x ((hmem x).1 hx),
    fun hq hr => hroots ((hmem _).1 hq) ((hmem _).1 hr)⟩, fun x hx => hreduced x ((hmem x).1 hx)⟩, ?_⟩
  have hnodup : ∀ {xs : List (Atom × Int)}, (xs.Pairwise fun x y => x.1 ≠ y.1) → xs.Nodup :=
    fun h => h.imp fun hne heq => hne (congrArg Prod.fst heq)
  exact (List.perm_ext_iff_of_nodup (hnodup hne) (hnodup hsorted.pairwise_ne)).2 fun x =>
    (hmem x).symm

theorem reduced_one : Reduced one := ⟨⟨List.Pairwise.nil, nofun, nofun⟩, nofun⟩

theorem Reduced.of_sublist {factors : List (Atom × Int)} (hm : m.Reduced)
    (h : factors.Sublist m.factors) : Reduced ⟨factors⟩ :=
  ⟨hm.arranged.of_sublist h, fun x hx => hm.factors x (h.subset hx)⟩

theorem reduced_singleton {a : Atom} {k : Int} (hfits : ExponentFits (a, k))
    (h : FactorReduced (a, k)) : Reduced ⟨[(a, k)]⟩ :=
  ⟨arranged_singleton hfits, List.forall_mem_singleton.2 h⟩

/-- Where a power of an atom is reduced, so is the atom. -/
theorem Reduced.unit {a : Atom} {k : Int} (h : Reduced ⟨[(a, k)]⟩) : Reduced ⟨[(a, 1)]⟩ := by
  have hfits := h.arranged.exponents _ (List.mem_singleton_self _)
  have hreduced := h.factors _ (List.mem_singleton_self _)
  refine reduced_singleton ?_ ?_
  · cases a with
    | radical f n =>
      have hfits : 0 < k ∧ k < n := hfits
      exact ⟨one_pos, by omega⟩
    | imaginaryUnit | root q n => exact rfl
    | _ => exact one_ne_zero
  · cases a with
    | root q n => exact hreduced
    | reciprocal f => exact ⟨one_pos, by decide⟩
    | _ => exact (by decide : Width.isInt32 1 = true)

theorem reduced_e : Reduced ⟨[(.e, 1)]⟩ :=
  reduced_singleton one_ne_zero (by decide : Width.isInt32 1 = true)

theorem reduced_reciprocal (f : Form) : Reduced ⟨[(.reciprocal f, 1)]⟩ :=
  reduced_singleton one_ne_zero ⟨one_pos, by decide⟩

end Monomial

namespace Form

variable {m : Monomial} {x : Atom × Int}

/-- Normalisation leaves reduced monomials alone. -/
theorem normalize_of_perm {factors : List (Atom × Int)} {m : Monomial} (hm : m.Reduced)
    (h : factors.Perm m.factors) (n : Nat) (c : Rat) : normalize n c factors = ofTerm m c :=
  normalize_of_settled hm.settled h n c

theorem ofFactors_of_reduced (hm : m.Reduced) (c : Rat) : ofFactors c m.factors = ofTerm m c :=
  normalize_of_perm hm (List.Perm.refl _) _ c

theorem ofAtom_of_reduced {a : Atom} (h : Monomial.Reduced ⟨[(a, 1)]⟩) :
    ofAtom a = ofTerm ⟨[(a, 1)]⟩ 1 := ofFactors_of_reduced h 1

/-! ### Products of forms with reduced monomials -/

end Form

/-- The monomial is reduced, and its atoms are of a class. -/
structure Monomial.ReducedIn (S : Atom → Prop) (m : Monomial) : Prop where
  reduced : m.Reduced
  atoms : ∀ x ∈ m.factors, S x.1

/-- The atoms of two classes are different, and roots among them have different indices. -/
def Atom.Apart (S T : Atom → Prop) : Prop :=
  (∀ a, S a → ¬ T a) ∧ ∀ q r n, S (.root q n) → ¬ T (.root r n)

theorem Monomial.ReducedIn.imp {S T : Atom → Prop} {m : Monomial} (h : m.ReducedIn S)
    (himp : ∀ a, S a → T a) : m.ReducedIn T :=
  ⟨h.reduced, fun x hx => himp _ (h.atoms x hx)⟩

theorem Monomial.reducedIn_one (S : Atom → Prop) : Monomial.one.ReducedIn S :=
  ⟨reduced_one, nofun⟩

theorem Monomial.reducedIn_singleton {S : Atom → Prop} {a : Atom} (ha : S a)
    (h : Reduced ⟨[(a, 1)]⟩) : ReducedIn S ⟨[(a, 1)]⟩ :=
  ⟨h, fun x hx => by rwa [List.mem_singleton.1 hx]⟩

/-- Reduced monomials of classes that are apart have a reduced product. -/
theorem Monomial.ReducedIn.exists_product {S T : Atom → Prop} (hapart : Atom.Apart S T)
    {m l : Monomial} (hm : m.ReducedIn S) (hl : l.ReducedIn T) :
    ∃ k : Monomial, k.ReducedIn (fun a => S a ∨ T a) ∧ (m.factors ++ l.factors).Perm k.factors := by
  obtain ⟨k, hk, hperm⟩ : ∃ k : Monomial, k.Reduced ∧ (m.factors ++ l.factors).Perm k.factors :=
    exists_reduced
    (List.pairwise_append.2 ⟨hm.reduced.arranged.sorted.pairwise_ne,
      hl.reduced.arranged.sorted.pairwise_ne, fun x hx y hy heq =>
        hapart.1 x.1 (hm.atoms x hx) (heq ▸ hl.atoms y hy)⟩)
    (fun x hx => (List.mem_append.1 hx).elim (hm.reduced.arranged.exponents x)
      (hl.reduced.arranged.exponents x))
    (fun {q r n k l'} hq hr => by
      rcases List.mem_append.1 hq with hq | hq <;> rcases List.mem_append.1 hr with hr | hr
      · exact hm.reduced.arranged.roots hq hr
      · exact absurd (hl.atoms _ hr) (hapart.2 q r n (hm.atoms _ hq))
      · exact absurd (hl.atoms _ hq) (hapart.2 r q n (hm.atoms _ hr))
      · exact hl.reduced.arranged.roots hq hr)
    (fun x hx => (List.mem_append.1 hx).elim (hm.reduced.factors x) (hl.reduced.factors x))
  refine ⟨k, ⟨hk, fun x hx => ?_⟩, hperm⟩
  exact (List.mem_append.1 (hperm.mem_iff.2 hx)).imp (hm.atoms x) (hl.atoms x)

namespace Form

section Products

variable {f g : Form} {S T : Atom → Prop}

/-- The product of forms whose monomials are apart has their reduced products for monomials. -/
theorem monomialsIn_mul_of_reducedIn (hapart : Atom.Apart S T)
    (hf : f.MonomialsIn (Monomial.ReducedIn S)) (hg : g.MonomialsIn (Monomial.ReducedIn T)) :
    (mul f g).MonomialsIn (Monomial.ReducedIn fun a => S a ∨ T a) := by
  refine monomialsIn_sumAll fun x hx => ?_
  obtain ⟨s, hs, hx⟩ := List.mem_flatMap.1 hx
  obtain ⟨t, ht, rfl⟩ := List.mem_map.1 hx
  unfold mulTermWith
  dsimp only
  split
  · exact monomialsIn_ofTerm ((hf s hs).imp fun _ => .inl) _
  · split
    · exact monomialsIn_ofTerm ((hg t ht).imp fun _ => .inr) _
    · obtain ⟨k, hk, hperm⟩ := (hf s hs).exists_product hapart (hg t ht)
      rw [normalize_of_perm hk.reduced hperm]
      exact monomialsIn_ofTerm hk _

/-- The product of forms whose monomials are apart has the product of their values. -/
theorem value_mul_of_reducedIn {K : Type*} [Field K] [CharZero K] (v : Atom → K)
    (hapart : Atom.Apart S T) (hf : f.MonomialsIn (Monomial.ReducedIn S))
    (hg : g.MonomialsIn (Monomial.ReducedIn T)) :
    (mul f g).value v = f.value v * g.value v := by
  refine value_mulWith_of_terms fun s hs t ht => value_mulTermWith fun _ _ => ?_
  obtain ⟨k, hk, hperm⟩ := (hf s hs).exists_product hapart (hg t ht)
  rw [normalize_of_perm hk.reduced hperm, value_ofTerm, Monomial.value]
  exact congrArg _ ((hperm.map _).prod_eq).symm

end Products

/-! ### Arithmetic of single terms -/

/-- Forms of different atoms differ. -/
theorem eq_of_ofAtom_eq {a b : Atom} (ha : Monomial.Reduced ⟨[(a, 1)]⟩)
    (hb : Monomial.Reduced ⟨[(b, 1)]⟩) (h : ofAtom a = ofAtom b) : a = b := by
  rw [ofAtom_of_reduced ha, ofAtom_of_reduced hb] at h
  simpa [ofTerm] using h

theorem one_mul_ofAtom {a : Atom} (h : Monomial.Reduced ⟨[(a, 1)]⟩) :
    mul one (ofAtom a) = ofAtom a := by
  rw [ofAtom_of_reduced h]
  have hmul := mul_ofTerm List.Pairwise.nil h.arranged.sorted h.settled (List.Perm.refl _) 1 1
  rwa [one_mul] at hmul

/-- Multiplying reduced factors to a term one after the other. -/
theorem foldl_mul_factors {xs ys : List (Atom × Int)} (h : Monomial.Reduced ⟨ys ++ xs⟩) (c : Rat) :
    (xs.map fun x => ofTerm ⟨[x]⟩ 1).foldl mul (ofTerm ⟨ys⟩ c) = ofTerm ⟨ys ++ xs⟩ c := by
  induction xs generalizing ys with
  | nil => rw [List.append_nil]; rfl
  | cons x xs ih =>
    have hnext : (ys ++ [x]).Sublist (ys ++ x :: xs) := by simp
    have hleft : ys.Sublist (ys ++ x :: xs) := List.sublist_append_left _ _
    rw [List.map_cons, List.foldl_cons, mul_ofTerm (h.of_sublist hleft).arranged.sorted
      (List.pairwise_singleton _ _) (h.of_sublist hnext).settled (List.Perm.refl _), mul_one]
    have happend : ys ++ x :: xs = ys ++ [x] ++ xs := by simp
    rw [happend] at h ⊢
    exact ih h

/-- The inverse of a term whose factors have reduced inverses. -/
theorem inverse?_ofTerm {c : Rat} (hc : c ≠ 0) (h : Monomial.Reduced ⟨m.scaleExponents (-1)⟩) :
    (ofTerm m c).inverse? = some (ofTerm ⟨m.scaleExponents (-1)⟩ c⁻¹) := by
  rw [ofTerm_eq hc, inverse?, maxRationalizations, inverseWith, if_neg (by simp [isZero])]
  exact congrArg some (normalize_of_perm h (List.Perm.refl _) _ _)

/-- A power with a natural exponent of an atom, where the exponent is reduced. -/
theorem pow?_ofTerm {a : Atom} {n : Nat} (hn : n ≤ maxExpandedPower)
    (h : Monomial.Reduced ⟨[(a, n)]⟩) :
    (ofTerm ⟨[(a, 1)]⟩ 1).pow? n = some (ofTerm ⟨[(a, n)]⟩ 1) := by
  have hne : n ≠ 0 := by
    have := Monomial.ne_zero_of_exponentFits (h.arranged.exponents _ (List.mem_singleton_self _))
    simpa using this
  rw [ofTerm_eq one_ne_zero, pow?, powWith_of_nonneg _ _ (by omega) (by omega), powNatWith,
    if_neg (by simpa using hne)]
  have hfactors : Monomial.scaleExponents ⟨[(a, 1)]⟩ ((n : Int).natAbs : Int) = [(a, (n : Int))] := by
    simp [Monomial.scaleExponents]
  have hone : Rat.pow 1 (n : Int).natAbs = 1 := one_pow (M := Rat) _
  rw [singleTerm?]
  dsimp only
  rw [hfactors, hone]
  exact congrArg some (normalize_of_perm h (List.Perm.refl _) _ _)

end Form

end Resolvent

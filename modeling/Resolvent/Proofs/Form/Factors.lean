import Resolvent.Form.Product
import Resolvent.Proofs.Form.Order
import Mathlib.Algebra.BigOperators.Group.List.Basic

/-!
# Factors of a product

`Monomial.collectFactors` puts factors in order (`Monomial.sorted_collectFactors`) and adds up the
exponents of each atom: its members are the atoms whose exponents do not cancel, with the sum of
their exponents (`Monomial.mem_collectFactors`).
-/

namespace Resolvent.Monomial

theorem atom_of_mem_insertFactor {a : Atom} {k : Int} {x : Atom × Int}
    {factors : List (Atom × Int)} (h : x ∈ insertFactor a k factors) :
    x.1 = a ∨ ∃ l, (x.1, l) ∈ factors := by
  induction factors with
  | nil =>
    rw [List.mem_singleton.1 h]
    exact .inl rfl
  | cons y factors ih =>
    obtain ⟨b, l⟩ := y
    rw [insertFactor] at h
    split at h
    · rcases List.mem_cons.1 h with rfl | h
      · exact .inl rfl
      · exact .inr ⟨x.2, h⟩
    · rcases List.mem_cons.1 h with rfl | h
      · exact .inr ⟨l, List.mem_cons_self⟩
      · exact .inr ⟨x.2, List.mem_cons_of_mem _ h⟩
    · rcases List.mem_cons.1 h with rfl | h
      · exact .inr ⟨l, List.mem_cons_self⟩
      · rcases ih h with ha | ⟨m, hm⟩
        · exact .inl ha
        · exact .inr ⟨m, List.mem_cons_of_mem _ hm⟩

theorem exists_of_mem_foldl_insertFactor {x : Atom × Int} {factors sorted : List (Atom × Int)}
    (h : x ∈ factors.foldl (fun sorted y => insertFactor y.1 y.2 sorted) sorted) :
    ∃ k, (x.1, k) ∈ sorted ++ factors := by
  induction factors generalizing sorted with
  | nil => exact ⟨x.2, by simpa using h⟩
  | cons y factors ih =>
    obtain ⟨k, hk⟩ := ih h
    rcases List.mem_append.1 hk with hk | hk
    · rcases atom_of_mem_insertFactor hk with ha | ⟨l, hl⟩
      · exact ⟨y.2, by simp [show (x.1, y.2) = y from Prod.ext ha rfl]⟩
      · exact ⟨l, List.mem_append_left _ hl⟩
    · exact ⟨k, List.mem_append_right _ (List.mem_cons_of_mem _ hk)⟩

/-- Adding up exponents makes no atoms. -/
theorem exists_of_mem_collectFactors {x : Atom × Int} {factors : List (Atom × Int)}
    (h : x ∈ collectFactors factors) : ∃ k, (x.1, k) ∈ factors := by
  simpa using exists_of_mem_foldl_insertFactor (List.mem_filter.1 h).1

/-- What holds of all atoms of a product holds of them once their exponents are added up. -/
theorem forall_collectFactors {P : Atom → Prop} {factors : List (Atom × Int)}
    (h : ∀ x ∈ factors, P x.1) : ∀ x ∈ collectFactors factors, P x.1 := fun x hx =>
  have ⟨k, hk⟩ := exists_of_mem_collectFactors hx
  h (x.1, k) hk

/-! ### Order -/

/-- The factors are in order, and no atom occurs twice. -/
def Sorted (factors : List (Atom × Int)) : Prop :=
  factors.Pairwise fun x y => x.1.order y.1 = .lt

theorem Sorted.pairwise_ne {factors : List (Atom × Int)} (h : Sorted factors) :
    factors.Pairwise fun x y => x.1 ≠ y.1 := by
  refine h.imp fun {x y} hxy heq => ?_
  rw [heq, Atom.order_self] at hxy
  cases hxy

/-- Ordered factors are known by their members. -/
theorem Sorted.eq_of_mem_iff {xs ys : List (Atom × Int)} (hxs : Sorted xs) (hys : Sorted ys)
    (h : ∀ x, x ∈ xs ↔ x ∈ ys) : xs = ys := by
  have hnodup : ∀ {xs : List (Atom × Int)}, Sorted xs → xs.Nodup := fun hxs =>
    hxs.pairwise_ne.imp fun hne heq => hne (congrArg Prod.fst heq)
  refine ((List.perm_ext_iff_of_nodup (hnodup hxs) (hnodup hys)).2 h).eq_of_pairwise
    (fun x y _ _ hxy hyx => ?_) hxs hys
  have hlt := Atom.order_trans _ _ _ hxy hyx
  rw [Atom.order_self] at hlt
  cases hlt

theorem sorted_insertFactor {a : Atom} {k : Int} {factors : List (Atom × Int)}
    (h : Sorted factors) : Sorted (insertFactor a k factors) := by
  induction factors with
  | nil => exact List.pairwise_singleton _ _
  | cons y factors ih =>
    obtain ⟨b, l⟩ := y
    obtain ⟨hb, htail⟩ := List.pairwise_cons.1 h
    rw [insertFactor]
    split
    · next hlt =>
      refine List.pairwise_cons.2 ⟨fun x hx => ?_, h⟩
      rcases List.mem_cons.1 hx with rfl | hx
      · exact hlt
      · exact Atom.order_trans _ _ _ hlt (hb x hx)
    · exact List.pairwise_cons.2 ⟨hb, htail⟩
    · next hgt =>
      refine List.pairwise_cons.2 ⟨fun x hx => ?_, ih htail⟩
      rcases atom_of_mem_insertFactor hx with ha | ⟨m, hm⟩
      · rw [ha]
        exact Atom.order_gt_iff.1 hgt
      · exact hb (x.1, m) hm

theorem sorted_foldl_insertFactor (factors : List (Atom × Int)) {sorted : List (Atom × Int)}
    (h : Sorted sorted) :
    Sorted (factors.foldl (fun sorted x => insertFactor x.1 x.2 sorted) sorted) := by
  induction factors generalizing sorted with
  | nil => exact h
  | cons x factors ih => exact ih (sorted_insertFactor h)

theorem sorted_collectFactors (factors : List (Atom × Int)) : Sorted (collectFactors factors) :=
  (sorted_foldl_insertFactor factors List.Pairwise.nil).filter _

/-! ### Sums of exponents -/

/-- The sum of the exponents of an atom. -/
def exponentSum (a : Atom) (factors : List (Atom × Int)) : Int :=
  (factors.map fun x => if x.1 = a then x.2 else 0).sum

theorem exponentSum_nil (a : Atom) : exponentSum a [] = 0 := rfl

theorem exponentSum_cons (a : Atom) (x : Atom × Int) (factors : List (Atom × Int)) :
    exponentSum a (x :: factors) = (if x.1 = a then x.2 else 0) + exponentSum a factors := by
  simp [exponentSum]

theorem exponentSum_append (a : Atom) (xs ys : List (Atom × Int)) :
    exponentSum a (xs ++ ys) = exponentSum a xs + exponentSum a ys := by
  simp [exponentSum]

theorem exponentSum_insertFactor (a b : Atom) (k : Int) (factors : List (Atom × Int)) :
    exponentSum a (insertFactor b k factors) =
      (if b = a then k else 0) + exponentSum a factors := by
  induction factors with
  | nil => simp [insertFactor, exponentSum_cons, exponentSum_nil]
  | cons y factors ih =>
    obtain ⟨c, l⟩ := y
    rw [insertFactor]
    split
    · rw [exponentSum_cons]
    · next heq =>
      obtain rfl := Atom.order_eq_iff.1 heq
      rw [exponentSum_cons, exponentSum_cons]
      dsimp only
      split <;> omega
    · rw [exponentSum_cons, ih, exponentSum_cons]
      omega

theorem exponentSum_foldl_insertFactor (a : Atom) (factors sorted : List (Atom × Int)) :
    exponentSum a (factors.foldl (fun sorted x => insertFactor x.1 x.2 sorted) sorted) =
      exponentSum a sorted + exponentSum a factors := by
  induction factors generalizing sorted with
  | nil => simp [exponentSum_nil]
  | cons x factors ih =>
    rw [List.foldl_cons, ih, exponentSum_insertFactor, exponentSum_cons]
    omega

theorem exponentSum_eq_zero {a : Atom} {factors : List (Atom × Int)}
    (h : ∀ x ∈ factors, x.1 ≠ a) : exponentSum a factors = 0 := by
  induction factors with
  | nil => rfl
  | cons x factors ih =>
    rw [exponentSum_cons, if_neg (h x List.mem_cons_self),
      ih fun y hy => h y (List.mem_cons_of_mem _ hy), zero_add]

/-- Where no atom occurs twice, the sum of the exponents of an atom is its exponent. -/
theorem exponentSum_eq_of_mem {x : Atom × Int} {factors : List (Atom × Int)}
    (h : factors.Pairwise fun x y => x.1 ≠ y.1) (hx : x ∈ factors) :
    exponentSum x.1 factors = x.2 := by
  induction factors with
  | nil => cases hx
  | cons y factors ih =>
    obtain ⟨hy, htail⟩ := List.pairwise_cons.1 h
    rw [exponentSum_cons]
    rcases List.mem_cons.1 hx with rfl | hx
    · rw [if_pos rfl, exponentSum_eq_zero fun z hz heq => hy z hz heq.symm, add_zero]
    · rw [if_neg (hy x hx), ih htail hx, zero_add]

/-- Where no atom occurs twice, the factors are the atoms with the sums of their exponents. -/
theorem mem_iff_exponentSum {x : Atom × Int} {factors : List (Atom × Int)}
    (h : factors.Pairwise fun x y => x.1 ≠ y.1) (hne : x.2 ≠ 0) :
    x ∈ factors ↔ exponentSum x.1 factors = x.2 := by
  refine ⟨exponentSum_eq_of_mem h, fun hsum => ?_⟩
  -- an atom that is absent has the sum zero, one that is present has its exponent for a sum
  by_cases hmem : ∃ l, (x.1, l) ∈ factors
  · obtain ⟨l, hl⟩ := hmem
    rw [exponentSum_eq_of_mem h hl] at hsum
    rwa [show (x.1, l) = x from Prod.ext rfl hsum] at hl
  · refine absurd (hsum.symm.trans (exponentSum_eq_zero fun y hy heq => hmem ⟨y.2, ?_⟩)) hne
    rw [← heq]
    exact hy

/-- Collected factors are the atoms whose exponents do not cancel, with the sum of these. -/
theorem mem_collectFactors {x : Atom × Int} {factors : List (Atom × Int)} :
    x ∈ collectFactors factors ↔ x.2 ≠ 0 ∧ exponentSum x.1 factors = x.2 := by
  have hsorted := (sorted_foldl_insertFactor factors List.Pairwise.nil).pairwise_ne
  have hsum := exponentSum_foldl_insertFactor x.1 factors []
  rw [exponentSum_nil, zero_add] at hsum
  rw [collectFactors, List.mem_filter, bne_iff_ne, and_comm]
  refine and_congr_right fun hne => ?_
  rw [mem_iff_exponentSum hsorted hne, hsum]

theorem mem_collectFactors_of_pairwise {x : Atom × Int} {factors : List (Atom × Int)}
    (h : factors.Pairwise fun x y => x.1 ≠ y.1) :
    x ∈ collectFactors factors ↔ x.2 ≠ 0 ∧ x ∈ factors := by
  rw [mem_collectFactors]
  exact and_congr_right fun hne => (mem_iff_exponentSum h hne).symm

theorem exponentSum_collectFactors (a : Atom) (factors : List (Atom × Int)) :
    exponentSum a (collectFactors factors) = exponentSum a factors := by
  have hpairwise := (sorted_collectFactors factors).pairwise_ne
  by_cases hzero : exponentSum a factors = 0
  · rw [hzero]
    refine exponentSum_eq_zero fun x hx heq => ?_
    obtain ⟨hne, hsum⟩ := mem_collectFactors.1 hx
    rw [heq, hzero] at hsum
    exact hne hsum.symm
  · exact exponentSum_eq_of_mem (x := (a, exponentSum a factors)) hpairwise
      (mem_collectFactors.2 ⟨hzero, rfl⟩)

theorem eq_of_mem_collectFactors_singleton {x y : Atom × Int} (h : x ∈ collectFactors [y]) :
    x = y :=
  List.mem_singleton.1 ((mem_collectFactors_of_pairwise (List.pairwise_singleton _ _)).1 h).2

end Resolvent.Monomial

import Resolvent.Form.Conjugation
import Resolvent.Proofs.Form.Closed
import Resolvent.Proofs.Form.Order

/-!
# Terms in order

The terms of a form are in order, `Form.Sorted`, when each monomial is smaller than those behind it.
Merging keeps this, so sums, multiples and parts of ordered forms are in order, and products and
normalised products of atoms are always (`Form.sorted_mulWith`, `Form.sorted_normalize`).
-/

namespace Resolvent.Form

/-- The terms are in order, and no monomial occurs twice. -/
def Sorted (f : Form) : Prop := f.terms.Pairwise fun s t => s.1.order t.1 = .lt

variable {f g : Form}

theorem sorted_zero : zero.Sorted := List.Pairwise.nil

theorem sorted_ofTerm (m : Monomial) (q : Rat) : (ofTerm m q).Sorted := by
  unfold ofTerm
  split
  · exact sorted_zero
  · exact List.pairwise_singleton _ _

theorem Sorted.map (h : f.Sorted) {φ : Monomial × Rat → Rat} :
    Sorted ⟨f.terms.map fun t => (t.1, φ t)⟩ :=
  List.pairwise_map.2 h

theorem Sorted.neg (h : f.Sorted) : f.neg.Sorted := h.map

theorem Sorted.scale (h : f.Sorted) (k : Rat) : (f.scale k).Sorted := by
  unfold Form.scale
  split
  · exact sorted_zero
  · exact h.map

/-! ### Sums -/

section Merging

variable {m : Monomial} {q : Rat} {rest : List (Monomial × Rat) → List (Monomial × Rat)}

theorem fst_of_mem_mergeTerm {P : Monomial → Prop}
    (hrest : ∀ ys, ∀ t ∈ rest ys, P t.1 ∨ t.1 ∈ ys.map Prod.fst)
    {ys : List (Monomial × Rat)} {t : Monomial × Rat} (ht : t ∈ mergeTerm m q rest ys) :
    t.1 = m ∨ P t.1 ∨ t.1 ∈ ys.map Prod.fst := by
  induction ys with
  | nil =>
    rcases List.mem_cons.1 ht with rfl | ht
    · exact .inl rfl
    · exact .inr (hrest [] t ht)
  | cons y ys ih =>
    obtain ⟨n, r⟩ := y
    have htail : ∀ t ∈ rest ys, P t.1 ∨ t.1 ∈ ((n, r) :: ys).map Prod.fst := fun t ht =>
      (hrest ys t ht).imp_right (List.mem_cons_of_mem _)
    rw [mergeTerm] at ht
    split at ht
    · rcases List.mem_cons.1 ht with rfl | ht
      · exact .inl rfl
      · exact .inr (hrest _ t ht)
    · split at ht
      · exact .inr (htail t ht)
      · rcases List.mem_cons.1 ht with rfl | ht
        · exact .inl rfl
        · exact .inr (htail t ht)
    · rcases List.mem_cons.1 ht with rfl | ht
      · exact .inr (.inr List.mem_cons_self)
      · exact (ih ht).imp_right (Or.imp_right (List.mem_cons_of_mem _))

theorem pairwise_mergeTerm
    (hrest : ∀ ys, ∀ t ∈ rest ys, m.order t.1 = .lt ∨ t.1 ∈ ys.map Prod.fst)
    (hsorted : ∀ ys, ys.Pairwise (fun s t => s.1.order t.1 = .lt) →
      (rest ys).Pairwise fun s t => s.1.order t.1 = .lt)
    {ys : List (Monomial × Rat)} (hys : ys.Pairwise fun s t => s.1.order t.1 = .lt) :
    (mergeTerm m q rest ys).Pairwise fun s t => s.1.order t.1 = .lt := by
  induction ys with
  | nil =>
    refine List.pairwise_cons.2 ⟨fun t ht => ?_, hsorted [] hys⟩
    exact (hrest [] t ht).resolve_right List.not_mem_nil
  | cons y ys ih =>
    obtain ⟨n, r⟩ := y
    obtain ⟨hn, htail⟩ := List.pairwise_cons.1 hys
    -- the terms behind the first one are above it
    have habove : ∀ t : Monomial × Rat, t.1 ∈ ys.map Prod.fst → n.order t.1 = .lt := by
      intro t ht
      obtain ⟨y, hy, heq⟩ := List.mem_map.1 ht
      rw [← heq]
      exact hn y hy
    rw [mergeTerm]
    split
    · next hlt =>
      refine List.pairwise_cons.2 ⟨fun t ht => ?_, hsorted _ hys⟩
      rcases hrest _ t ht with h | h
      · exact h
      · rcases List.mem_cons.1 h with h | h
        · rw [h]
          exact hlt
        · exact Monomial.order_trans _ _ _ hlt (habove t h)
    · next heq =>
      obtain rfl := Monomial.order_eq_iff.1 heq
      split
      · exact hsorted _ htail
      · refine List.pairwise_cons.2 ⟨fun t ht => ?_, hsorted _ htail⟩
        exact (hrest _ t ht).elim id (habove t)
    · next hgt =>
      refine List.pairwise_cons.2 ⟨fun t ht => ?_, ih htail⟩
      have hnm := Monomial.order_gt_iff.1 hgt
      rcases fst_of_mem_mergeTerm (P := fun n => m.order n = .lt) hrest ht with h | h | h
      · rw [h]
        exact hnm
      · exact Monomial.order_trans _ _ _ hnm h
      · exact habove t h

end Merging

theorem fst_of_mem_mergeTerms (xs : List (Monomial × Rat)) (ys : List (Monomial × Rat)) :
    ∀ t ∈ mergeTerms xs ys, t.1 ∈ xs.map Prod.fst ∨ t.1 ∈ ys.map Prod.fst := by
  induction xs generalizing ys with
  | nil => exact fun t ht => .inr (List.mem_map_of_mem ht)
  | cons x xs ih =>
    intro t ht
    rcases fst_of_mem_mergeTerm ih ht with h | h | h
    · rw [h]
      exact .inl List.mem_cons_self
    · exact .inl (List.mem_cons_of_mem _ h)
    · exact .inr h

theorem pairwise_mergeTerms {xs : List (Monomial × Rat)}
    (hxs : xs.Pairwise fun s t => s.1.order t.1 = .lt) :
    ∀ ys : List (Monomial × Rat), ys.Pairwise (fun s t => s.1.order t.1 = .lt) →
      (mergeTerms xs ys).Pairwise fun s t => s.1.order t.1 = .lt := by
  induction xs with
  | nil => exact fun ys hys => hys
  | cons x xs ih =>
    obtain ⟨hx, htail⟩ := List.pairwise_cons.1 hxs
    refine fun ys hys => pairwise_mergeTerm (fun zs t ht => ?_) (ih htail) hys
    rcases fst_of_mem_mergeTerms xs zs t ht with h | h
    · obtain ⟨y, hy, heq⟩ := List.mem_map.1 h
      rw [← heq]
      exact .inl (hx y hy)
    · exact .inr h

theorem Sorted.add (hf : f.Sorted) (hg : g.Sorted) : (f.add g).Sorted :=
  pairwise_mergeTerms hf g.terms hg

theorem Sorted.sub (hf : f.Sorted) (hg : g.Sorted) : (f.sub g).Sorted := hf.add hg.neg

theorem sorted_sumAll {fs : List Form} (h : ∀ f ∈ fs, f.Sorted) : (sumAll fs).Sorted :=
  sumAll_of_closed sorted_zero (fun _ _ => Sorted.add) h

theorem Sorted.realPart (h : f.Sorted) : f.realPart.Sorted := List.Pairwise.filter _ h

theorem sorted_imaginaryPart (f : Form) : f.imaginaryPart.Sorted := by
  refine sorted_sumAll fun x hx => ?_
  obtain ⟨t, -, rfl⟩ := List.mem_map.1 hx
  exact sorted_ofTerm _ _

/-! ### Products -/

theorem sorted_mulWith {normalize : Rat → List (Atom × Int) → Form}
    (h : ∀ c factors, (normalize c factors).Sorted) (f g : Form) :
    (mulWith normalize f g).Sorted := by
  refine sorted_sumAll fun x hx => ?_
  obtain ⟨s, -, hx⟩ := List.mem_flatMap.1 hx
  obtain ⟨t, -, rfl⟩ := List.mem_map.1 hx
  unfold mulTermWith
  dsimp only
  split
  · exact sorted_ofTerm _ _
  · split
    · exact sorted_ofTerm _ _
    · exact h _ _

/-- The terms of a normalised product are in order. -/
theorem sorted_normalize (n : Nat) (c : Rat) (factors : List (Atom × Int)) :
    (normalize n c factors).Sorted := by
  induction n generalizing c factors with
  | zero =>
    rw [normalize, normalizeWith]
    split
    · exact sorted_zero
    · dsimp only
      split <;> exact sorted_ofTerm _ _
  | succ n ih =>
    rw [normalize, normalizeWith]
    split
    · exact sorted_zero
    · dsimp only
      split
      · exact sorted_ofTerm _ _
      · exact sorted_mulWith ih _ _

theorem sorted_powNatWith {normalize : Rat → List (Atom × Int) → Form}
    (h : ∀ c factors, (normalize c factors).Sorted) {f : Form} (hf : f.Sorted) (n : Nat) :
    (powNatWith normalize f n).Sorted :=
  powNatWith_of_closed (fun f g _ _ => sorted_mulWith h f g) (sorted_ofTerm _ _) hf
    fun _ _ _ => h _ _

theorem sorted_inverseWith {normalize : Rat → List (Atom × Int) → Form}
    (h : ∀ c factors, (normalize c factors).Sorted) {budget : Nat} {f g : Form}
    (hg : inverseWith normalize budget f = some g) : g.Sorted := by
  cases budget with
  | zero =>
    rw [inverseWith] at hg
    split at hg
    · cases hg
    · split at hg <;> cases hg <;> exact h _ _
  | succ budget =>
    rw [inverseWith] at hg
    split at hg
    · cases hg
    · split at hg
      · cases hg
        exact h _ _
      · split at hg
        · cases hg
          exact h _ _
        · split at hg
          · cases hg
            exact sorted_mulWith h _ _
          · cases hg
            exact h _ _

theorem sorted_powWith {normalize : Rat → List (Atom × Int) → Form}
    (h : ∀ c factors, (normalize c factors).Sorted) {f g : Form} (hf : f.Sorted) {k : Int}
    (hg : powWith normalize f k = some g) : g.Sorted := by
  unfold powWith at hg
  split at hg
  · cases hg
  · split at hg
    · obtain ⟨i, hi, rfl⟩ := Option.map_eq_some_iff.1 hg
      exact sorted_powNatWith h (sorted_inverseWith h hi) _
    · cases hg
      exact sorted_powNatWith h hf _

end Resolvent.Form

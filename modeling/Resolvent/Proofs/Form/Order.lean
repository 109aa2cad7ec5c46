import Resolvent.Form.Basic
import Mathlib.Algebra.Order.Field.Rat
import Mathlib.Order.Compare

/-!
# The order of forms

The orders of atoms, monomials and forms are strict linear orders: comparing the other way round
swaps the answer (`Atom.order_swap`) and being smaller is transitive (`Atom.order_trans`).  An atom
is compared by its rank first, so only atoms of one kind need a look at their parts.

Adding up exponents and merging terms therefore keep lists in order: `Monomial.Sorted` holds of all
collected factors and `Form.Sorted` of all sums and products.
-/

namespace Resolvent

theorem Rational.order_swap (a b : Rat) : (Rational.order a b).swap = Rational.order b a := by
  unfold Rational.order
  rcases lt_trichotomy a b with h | h | h
  · simp [h, h.ne', not_lt.2 h.le]
  · simp [h]
  · simp [h, h.ne', not_lt.2 h.le]

theorem Rational.order_lt_iff {a b : Rat} : Rational.order a b = .lt ↔ a < b := by
  unfold Rational.order
  split
  · next h => simp [h]
  · next h => split <;> simp [h]

/-- Transitivity of a lexicographic order, from its two parts. -/
theorem then_lt_trans {o₁ o₂ o₃ p₁ p₂ p₃ : Ordering}
    (ho : o₁ = .lt → o₂ = .lt → o₃ = .lt) (hl : o₁ = .eq → o₃ = o₂) (hr : o₂ = .eq → o₃ = o₁)
    (hp : p₁ = .lt → p₂ = .lt → p₃ = .lt) (h₁ : o₁.then p₁ = .lt) (h₂ : o₂.then p₂ = .lt) :
    o₃.then p₃ = .lt := by
  rcases Ordering.then_eq_lt.1 h₁ with h₁ | ⟨h₁, h₁'⟩
  · rcases Ordering.then_eq_lt.1 h₂ with h₂ | ⟨h₂, h₂'⟩
    · exact Ordering.then_eq_lt.2 (.inl (ho h₁ h₂))
    · exact Ordering.then_eq_lt.2 (.inl ((hr h₂).trans h₁))
  · rcases Ordering.then_eq_lt.1 h₂ with h₂ | ⟨h₂, h₂'⟩
    · exact Ordering.then_eq_lt.2 (.inl ((hl h₁).trans h₂))
    · exact Ordering.then_eq_lt.2 (.inr ⟨(hl h₁).trans h₂, hp h₁' h₂'⟩)

/-! ### Swapping -/

theorem Atom.order_of_rank_ne {a b : Atom} (h : a.rank ≠ b.rank) :
    a.order b = compare a.rank b.rank := by
  cases a <;> cases b <;> first | exact absurd rfl h | simp only [Atom.order]

-- by induction on the first; the second is taken apart alongside
mutual

theorem Atom.order_swap : ∀ a b : Atom, (a.order b).swap = b.order a
  | .symbol i, b => by cases b <;> simp [Atom.order, Atom.rank, Nat.compare_swap]
  | .pi, b => by cases b <;> simp [Atom.order, Atom.rank, Nat.compare_swap]
  | .e, b => by cases b <;> simp [Atom.order, Atom.rank, Nat.compare_swap]
  | .imaginaryUnit, b => by cases b <;> simp [Atom.order, Atom.rank, Nat.compare_swap]
  | .root _ _, b => by
    cases b <;> simp [Atom.order, Atom.rank, Nat.compare_swap, Ordering.swap_then,
      Rational.order_swap]
  | .radical f _, b => by
    cases b <;> simp [Atom.order, Atom.rank, Nat.compare_swap, Ordering.swap_then,
      Form.order_swap f]
  | .apply _ xs, b => by
    cases b <;> simp [Atom.order, Atom.rank, Nat.compare_swap, Ordering.swap_then,
      Form.orderAll_swap xs]
  | .power f g, b => by
    cases b <;> simp [Atom.order, Atom.rank, Nat.compare_swap, Ordering.swap_then,
      Form.order_swap f, Form.order_swap g]
  | .reciprocal f, b => by
    cases b <;> simp [Atom.order, Atom.rank, Nat.compare_swap, Form.order_swap f]

theorem Monomial.order_swap : ∀ m n : Monomial, (m.order n).swap = n.order m
  | ⟨xs⟩, ⟨ys⟩ => by
    simp only [Monomial.order]
    exact Monomial.orderFactors_swap xs ys

theorem Monomial.orderFactors_swap :
    ∀ xs ys : List (Atom × Int),
      (Monomial.orderFactors xs ys).swap = Monomial.orderFactors ys xs
  | [], [] => by simp [Monomial.orderFactors]
  | [], _ :: _ => by simp [Monomial.orderFactors]
  | _ :: _, [] => by simp [Monomial.orderFactors]
  | (a, k) :: xs, (b, l) :: ys => by
    simp [Monomial.orderFactors, Ordering.swap_then, Atom.order_swap a b,
      Monomial.orderFactors_swap xs ys, Int.compare_swap]

theorem Form.order_swap : ∀ f g : Form, (f.order g).swap = g.order f
  | ⟨xs⟩, ⟨ys⟩ => by
    simp only [Form.order]
    exact Form.orderTerms_swap xs ys

theorem Form.orderTerms_swap :
    ∀ xs ys : List (Monomial × Rat), (Form.orderTerms xs ys).swap = Form.orderTerms ys xs
  | [], [] => by simp [Form.orderTerms]
  | [], _ :: _ => by simp [Form.orderTerms]
  | _ :: _, [] => by simp [Form.orderTerms]
  | (m, q) :: xs, (n, r) :: ys => by
    simp [Form.orderTerms, Ordering.swap_then, Monomial.order_swap m n,
      Form.orderTerms_swap xs ys, Rational.order_swap]

theorem Form.orderAll_swap :
    ∀ fs gs : List Form, (Form.orderAll fs gs).swap = Form.orderAll gs fs
  | [], [] => by simp [Form.orderAll]
  | [], _ :: _ => by simp [Form.orderAll]
  | _ :: _, [] => by simp [Form.orderAll]
  | f :: fs, g :: gs => by
    simp [Form.orderAll, Ordering.swap_then, Form.order_swap f g, Form.orderAll_swap fs gs]

end

theorem Atom.order_gt_iff {a b : Atom} : a.order b = .gt ↔ b.order a = .lt := by
  rw [← Atom.order_swap a b]
  cases a.order b <;> simp

theorem Monomial.order_gt_iff {m n : Monomial} : m.order n = .gt ↔ n.order m = .lt := by
  rw [← Monomial.order_swap m n]
  cases m.order n <;> simp

/-! ### Transitivity -/

theorem Atom.order_trans_of_rank {a b c : Atom} (hab : a.order b = .lt) (hbc : b.order c = .lt)
    (hsame : a.rank = b.rank → b.rank = c.rank → a.order c = .lt) : a.order c = .lt := by
  -- a smaller atom has no larger rank
  have hle : ∀ {a b : Atom}, a.order b = .lt → a.rank ≤ b.rank := by
    intro a b h
    by_cases hrank : a.rank = b.rank
    · exact hrank.le
    · rw [Atom.order_of_rank_ne hrank, Nat.compare_eq_lt] at h
      exact h.le
  have h₁ := hle hab
  have h₂ := hle hbc
  by_cases hrank : a.rank = c.rank
  · exact hsame (by omega) (by omega)
  · rw [Atom.order_of_rank_ne hrank, Nat.compare_eq_lt]
    omega

-- by induction on the smallest: atoms of different kinds are settled by their ranks
mutual

theorem Atom.order_trans :
    ∀ a b c : Atom, a.order b = .lt → b.order c = .lt → a.order c = .lt
  | .symbol i, b, c => fun hab hbc => Atom.order_trans_of_rank hab hbc fun hb hc => by
    cases b <;> cases hb
    cases c <;> cases hc
    simp only [Atom.order, Nat.compare_eq_lt] at hab hbc ⊢
    omega
  | .pi, b, c => fun hab hbc => Atom.order_trans_of_rank hab hbc fun hb hc => by
    cases b <;> cases hb
    simp [Atom.order, Atom.rank] at hab
  | .e, b, c => fun hab hbc => Atom.order_trans_of_rank hab hbc fun hb hc => by
    cases b <;> cases hb
    simp [Atom.order, Atom.rank] at hab
  | .imaginaryUnit, b, c => fun hab hbc => Atom.order_trans_of_rank hab hbc fun hb hc => by
    cases b <;> cases hb
    simp [Atom.order, Atom.rank] at hab
  | .root _ _, b, c => fun hab hbc => Atom.order_trans_of_rank hab hbc fun hb hc => by
    cases b <;> cases hb
    cases c <;> cases hc
    simp only [Atom.order] at hab hbc ⊢
    refine then_lt_trans ?_ ?_ ?_ ?_ hab hbc
    · simp only [Rational.order_lt_iff]
      exact lt_trans
    · rw [Rational.order_eq_iff]
      rintro rfl
      rfl
    · rw [Rational.order_eq_iff]
      rintro rfl
      rfl
    · simp only [Nat.compare_eq_lt]
      exact Nat.lt_trans
  | .radical f _, b, c => fun hab hbc => Atom.order_trans_of_rank hab hbc fun hb hc => by
    cases b <;> cases hb
    cases c <;> cases hc
    simp only [Atom.order] at hab hbc ⊢
    refine then_lt_trans (Form.order_trans f _ _) ?_ ?_ ?_ hab hbc
    · exact fun h => by rw [Form.order_eq_iff.1 h]
    · exact fun h => by rw [Form.order_eq_iff.1 h]
    · simp only [Nat.compare_eq_lt]
      exact Nat.lt_trans
  | .apply f xs, b, c => fun hab hbc => Atom.order_trans_of_rank hab hbc fun hb hc => by
    cases b <;> cases hb
    cases c <;> cases hc
    simp only [Atom.order] at hab hbc ⊢
    refine then_lt_trans ?_ ?_ ?_ (Form.orderAll_trans xs _ _) hab hbc
    · simp only [Nat.compare_eq_lt]
      exact Nat.lt_trans
    · exact fun h => by rw [Nat.compare_eq_eq.1 h]
    · exact fun h => by rw [Nat.compare_eq_eq.1 h]
  | .power f g, b, c => fun hab hbc => Atom.order_trans_of_rank hab hbc fun hb hc => by
    cases b <;> cases hb
    cases c <;> cases hc
    simp only [Atom.order] at hab hbc ⊢
    refine then_lt_trans (Form.order_trans f _ _) ?_ ?_ (Form.order_trans g _ _) hab hbc
    · exact fun h => by rw [Form.order_eq_iff.1 h]
    · exact fun h => by rw [Form.order_eq_iff.1 h]
  | .reciprocal f, b, c => fun hab hbc => Atom.order_trans_of_rank hab hbc fun hb hc => by
    cases b <;> cases hb
    cases c <;> cases hc
    simp only [Atom.order] at hab hbc ⊢
    exact Form.order_trans f _ _ hab hbc

theorem Monomial.order_trans :
    ∀ l m n : Monomial, l.order m = .lt → m.order n = .lt → l.order n = .lt
  | ⟨xs⟩, ⟨ys⟩, ⟨zs⟩ => by
    simp only [Monomial.order]
    exact Monomial.orderFactors_trans xs ys zs

theorem Monomial.orderFactors_trans :
    ∀ xs ys zs : List (Atom × Int), Monomial.orderFactors xs ys = .lt →
      Monomial.orderFactors ys zs = .lt → Monomial.orderFactors xs zs = .lt
  | _, [], [] => by simp [Monomial.orderFactors]
  | _, _ :: _, [] => by simp [Monomial.orderFactors]
  | [], _, _ :: _ => by simp [Monomial.orderFactors]
  | _ :: _, [], _ :: _ => by simp [Monomial.orderFactors]
  | (a, k) :: xs, (b, l) :: ys, (c, m) :: zs => fun hxy hyz => by
    simp only [Monomial.orderFactors] at hxy hyz ⊢
    refine then_lt_trans (Atom.order_trans a b c) ?_ ?_ ?_ hxy hyz
    · exact fun h => by rw [Atom.order_eq_iff.1 h]
    · exact fun h => by rw [Atom.order_eq_iff.1 h]
    · refine then_lt_trans ?_ ?_ ?_ (Monomial.orderFactors_trans xs ys zs)
      · simp only [Int.compare_eq_lt]
        exact Int.lt_trans
      · exact fun h => by rw [Int.compare_eq_eq.1 h]
      · exact fun h => by rw [Int.compare_eq_eq.1 h]

theorem Form.order_trans :
    ∀ f g h : Form, f.order g = .lt → g.order h = .lt → f.order h = .lt
  | ⟨xs⟩, ⟨ys⟩, ⟨zs⟩ => by
    simp only [Form.order]
    exact Form.orderTerms_trans xs ys zs

theorem Form.orderTerms_trans :
    ∀ xs ys zs : List (Monomial × Rat), Form.orderTerms xs ys = .lt →
      Form.orderTerms ys zs = .lt → Form.orderTerms xs zs = .lt
  | _, [], [] => by simp [Form.orderTerms]
  | _, _ :: _, [] => by simp [Form.orderTerms]
  | [], _, _ :: _ => by simp [Form.orderTerms]
  | _ :: _, [], _ :: _ => by simp [Form.orderTerms]
  | (l, q) :: xs, (m, r) :: ys, (n, s) :: zs => fun hxy hyz => by
    simp only [Form.orderTerms] at hxy hyz ⊢
    refine then_lt_trans (Monomial.order_trans l m n) ?_ ?_ ?_ hxy hyz
    · exact fun h => by rw [Monomial.order_eq_iff.1 h]
    · exact fun h => by rw [Monomial.order_eq_iff.1 h]
    · refine then_lt_trans ?_ ?_ ?_ (Form.orderTerms_trans xs ys zs)
      · simp only [Rational.order_lt_iff]
        exact lt_trans
      · exact fun h => by rw [Rational.order_eq_iff.1 h]
      · exact fun h => by rw [Rational.order_eq_iff.1 h]

theorem Form.orderAll_trans :
    ∀ fs gs hs : List Form, Form.orderAll fs gs = .lt → Form.orderAll gs hs = .lt →
      Form.orderAll fs hs = .lt
  | _, [], [] => by simp [Form.orderAll]
  | _, _ :: _, [] => by simp [Form.orderAll]
  | [], _, _ :: _ => by simp [Form.orderAll]
  | _ :: _, [], _ :: _ => by simp [Form.orderAll]
  | f :: fs, g :: gs, h :: hs => fun hfg hgh => by
    simp only [Form.orderAll] at hfg hgh ⊢
    refine then_lt_trans (Form.order_trans f g h) ?_ ?_ (Form.orderAll_trans fs gs hs) hfg hgh
    · exact fun h => by rw [Form.order_eq_iff.1 h]
    · exact fun h => by rw [Form.order_eq_iff.1 h]

end

end Resolvent

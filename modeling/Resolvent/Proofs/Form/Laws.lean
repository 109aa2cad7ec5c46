import Resolvent.Proofs.Form.Stored
import Resolvent.Proofs.Form.Vector

/-!
# Laws of arithmetic

Forms are vectors and their product is bilinear, so the laws of addition, and the laws of
multiplication that relate it to addition, hold as equalities of forms
(`Form.Constructible.laws`).  Multiplication is commutative, as normalising a product of atoms begins
by collecting them (`Form.collectFactors_append_comm`) and the number of unfoldings does not matter.
Whether a product of roots is unfolded or left as it is plays no part here.
-/

namespace Resolvent

open Finsupp (single)

namespace Form

variable {f g h : Form}

/-! ### Addition -/

namespace Ordered

theorem add_comm (hf : f.Ordered) (hg : g.Ordered) : f.add g = g.add f :=
  (hf.add hg).eq_of_vector (hg.add hf) (by rw [vector_add, vector_add, AddCommMonoid.add_comm])

theorem add_assoc (hf : f.Ordered) (hg : g.Ordered) (hh : h.Ordered) :
    (f.add g).add h = f.add (g.add h) :=
  ((hf.add hg).add hh).eq_of_vector (hf.add (hg.add hh)) (by simp [AddSemigroup.add_assoc])

theorem sub_self (hf : f.Ordered) : f.sub f = Form.zero :=
  (hf.sub hf).eq_of_vector .zero (by simp)

/-- Multiplying with one changes nothing. -/
theorem mul_one (hf : f.Ordered) : f.mul one = f := by
  have hscale : f.scale 1 = f := (hf.scale 1).eq_of_vector hf (by simp)
  rw [Form.mul, one, mulWith_ofRat_right _ hf.sorted fun t ht => (hf.noZeros t ht).1, hscale]

end Ordered

/-! ### Multiplication -/

theorem collectFactors_append_comm (xs ys : List (Atom × Int)) :
    Monomial.collectFactors (xs ++ ys) = Monomial.collectFactors (ys ++ xs) :=
  (Monomial.sorted_collectFactors _).eq_of_mem_iff (Monomial.sorted_collectFactors _) fun x => by
    rw [Monomial.mem_collectFactors, Monomial.mem_collectFactors, Monomial.exponentSum_append,
      Monomial.exponentSum_append, Int.add_comm]

/-- What a product of atoms is normalised to depends on the factors that are collected. -/
theorem ofFactors_congr {xs ys : List (Atom × Int)} (h : Monomial.collectFactors xs =
    Monomial.collectFactors ys) (c : Rat) : ofFactors c xs = ofFactors c ys := by
  have hwith : ∀ n, normalize n c xs = normalize n c ys := by
    intro n
    cases n with
    | zero => rw [normalize, normalizeWith, normalizeWith, h]
    | succ n => rw [normalize, normalizeWith, normalizeWith, h]
  have hxs := Monomial.depthFactors_le_iff.1 (le_refl (Monomial.depthFactors xs))
  have hys := Monomial.depthFactors_le_iff.1 (le_refl (Monomial.depthFactors ys))
  -- as many unfoldings as both products need
  let n := 4 * Monomial.depthFactors xs + 4 * Monomial.depthFactors ys + 1
  rw [← normalize_eq_ofFactors hxs (N := n) (by omega), hwith,
    normalize_eq_ofFactors hys (by omega)]

theorem productVector_comm (m l : Monomial) :
    productVector ofFactors m l = productVector ofFactors l m := by
  have hone : ∀ {m : Monomial}, m.isOne = true → m = Monomial.one := by
    rintro ⟨factors⟩ hm
    exact congrArg Monomial.mk (List.isEmpty_iff.1 hm)
  unfold productVector mulTermWith
  dsimp only
  by_cases hm : m.isOne = true <;> by_cases hl : l.isOne = true
  · rw [hone hm, hone hl]
  · simp [hm, hl]
  · simp [hm, hl]
  · rw [if_neg hl, if_neg hm, if_neg hm, if_neg hl,
      ofFactors_congr (collectFactors_append_comm m.factors l.factors)]

/-- Multiplication is commutative. -/
theorem mul_eq_mul (f g : Form) : f.mul g = g.mul f := by
  have hflip : vectorProduct ofFactors = (vectorProduct ofFactors).flip := by
    refine Finsupp.lhom_ext fun m q => Finsupp.lhom_ext fun l r => ?_
    rw [LinearMap.flip_apply, vectorProduct_single, vectorProduct_single, productVector_comm,
      Rat.mul_comm]
  refine (Ordered.mul f g).eq_of_vector (.mul g f) ?_
  rw [vector_mul, vector_mul, hflip, LinearMap.flip_apply, ← hflip]

/-- Multiplication distributes over addition. -/
theorem mul_sum (f g h : Form) : f.mul (g.add h) = (f.mul g).add (f.mul h) := by
  refine (Ordered.mul f _).eq_of_vector ((Ordered.mul f g).add (.mul f h)) ?_
  rw [vector_mul, vector_add, vector_add, map_add, vector_mul, vector_mul]

theorem mul_right_zero (f : Form) : f.mul zero = zero := by
  refine (Ordered.mul f zero).eq_of_vector .zero ?_
  rw [vector_mul, vector_zero, map_zero]

/-! ### Forms that can be made -/

namespace Constructible

theorem sorted : ∀ {f : Form}, f.Constructible → f.Sorted
  | _, .add hf hg => (sorted hf).add (sorted hg)
  | _, .neg hf => (sorted hf).neg
  | _, .mul _ _ => sorted_mulWith (sorted_normalize _) _ _
  | _, .scale hf k => (sorted hf).scale k
  | _, .pow hf hg => sorted_powWith (sorted_normalize _) (sorted hf) hg
  | _, .inverse _ hg => sorted_inverseWith (sorted_normalize _) hg
  | _, .realPart hf => (sorted hf).realPart
  | _, .imaginaryPart _ => sorted_imaginaryPart _
  | _, .product c _ => sorted_normalize _ c _

/-- Forms that can be made are ordered. -/
theorem ordered (h : f.Constructible) : f.Ordered := ⟨h.sorted, h.noZeros⟩

/-- **The laws of arithmetic**, for all forms that can be made: addition is commutative and
associative with opposites, and multiplication is commutative and distributive with a one and a
zero. -/
theorem laws {a b c : Form} (ha : a.Constructible) (hb : b.Constructible)
    (hc : c.Constructible) :
    a.add b = b.add a ∧ (a.add b).add c = a.add (b.add c) ∧ a.sub a = zero ∧
      a.mul b = b.mul a ∧ a.mul (b.add c) = (a.mul b).add (a.mul c) ∧
      a.mul one = a ∧ a.mul zero = zero :=
  ⟨ha.ordered.add_comm hb.ordered, ha.ordered.add_assoc hb.ordered hc.ordered,
    ha.ordered.sub_self, mul_eq_mul a b, mul_sum a b c, ha.ordered.mul_one, mul_right_zero a⟩

/-- The laws for the root of `1 + x`, its reciprocal, and the cosine of that times a square root. -/
theorem laws_nested :
    let root := Form.ofAtom (.radical (Form.one.add (symbol 0)) 2)
    let reciprocal := Form.ofAtom (.reciprocal (Form.one.add root))
    let product := (Form.ofAtom (.apply .cos [reciprocal])).mul (Form.ofAtom (.root 2 2))
    root.mul (reciprocal.add product) = (root.mul reciprocal).add (root.mul product) ∧
      root.mul reciprocal = reciprocal.mul root := by
  have hroot : (Form.ofAtom (.radical (Form.one.add (symbol 0)) 2)).Constructible :=
    .ofAtom (.radical (.add (.ofRat 1) (.ofAtom (.symbol 0))) 2)
  have hreciprocal := Constructible.ofAtom (.reciprocal (.add (.ofRat 1) hroot))
  have hproduct := Constructible.mul
    (.ofAtom (.apply .cos fun f hf => List.mem_singleton.1 hf ▸ hreciprocal))
    (.ofAtom (.root 2 2))
  have hlaws := laws hroot hreciprocal hproduct
  exact ⟨hlaws.2.2.2.2.1, hlaws.2.2.2.1⟩

end Constructible

end Form

end Resolvent

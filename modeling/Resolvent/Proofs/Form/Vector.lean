import Resolvent.Proofs.Form.Budget
import Mathlib

/-!
# Forms as vectors

A form is a vector over the monomials (`Form.vector`): addition, opposites and multiples of forms are
those of vectors, and forms whose terms are in order without coefficients zero are known by their
vectors (`Form.Ordered.eq_of_vector`).

Normalising a product of atoms is linear in the coefficient (`Form.linear_normalize`), as nothing but
the term that stays depends on it.  So the product of forms is bilinear (`Form.vector_mul`), although
the product of two monomials may be a whole sum, whose terms cancel with others.
-/

namespace Resolvent

open Finsupp (single linearCombination)

namespace Form

/-! ### Vectors -/

/-- The vector of the coefficients in a list of terms. -/
noncomputable def termsVector (terms : List (Monomial × Rat)) : Monomial →₀ Rat :=
  (terms.map fun t => single t.1 t.2).sum

/-- The vector of the coefficients of a form. -/
noncomputable def vector (f : Form) : Monomial →₀ Rat := termsVector f.terms

/-- The terms are in order, and no coefficient is zero. -/
structure Ordered (f : Form) : Prop where
  /-- The terms are in order. -/
  sorted : f.Sorted
  /-- No coefficient is zero. -/
  noZeros : f.NoZeros

variable {f g h : Form}

@[simp]
theorem termsVector_nil : termsVector [] = 0 := rfl

@[simp]
theorem termsVector_cons (t : Monomial × Rat) (terms : List (Monomial × Rat)) :
    termsVector (t :: terms) = single t.1 t.2 + termsVector terms := by
  simp [termsVector]

@[simp]
theorem vector_zero : zero.vector = 0 := rfl

@[simp]
theorem vector_ofTerm (m : Monomial) (q : Rat) : (ofTerm m q).vector = single m q := by
  unfold ofTerm
  split
  · next hq => simp [hq]
  · simp [vector]

theorem termsVector_mergeTerm (m : Monomial) (q : Rat)
    {rest : List (Monomial × Rat) → List (Monomial × Rat)} {r : Monomial →₀ Rat}
    (hrest : ∀ ys, termsVector (rest ys) = r + termsVector ys) (ys : List (Monomial × Rat)) :
    termsVector (mergeTerm m q rest ys) = single m q + r + termsVector ys := by
  induction ys with
  | nil => rw [mergeTerm, termsVector_cons, hrest, add_assoc]
  | cons t ys ih =>
    obtain ⟨n, s⟩ := t
    rw [mergeTerm]
    split
    · rw [termsVector_cons, hrest, add_assoc]
    · next heq =>
      rw [Monomial.order_eq_iff] at heq
      subst heq
      have hsum : single m (q + s) = single m q + single m s := Finsupp.single_add m q s
      split
      · next hzero =>
        -- the coefficients cancel, and the term goes
        rw [hzero, Finsupp.single_zero] at hsum
        rw [hrest, termsVector_cons]
        calc r + termsVector ys = (single m q + single m s) + (r + termsVector ys) := by
              rw [← hsum, AddZeroClass.zero_add]
          _ = single m q + r + (single m s + termsVector ys) := by abel
      · rw [termsVector_cons, hrest, termsVector_cons, hsum]
        abel
    · rw [termsVector_cons, ih, termsVector_cons]
      abel

theorem termsVector_mergeTerms (xs ys : List (Monomial × Rat)) :
    termsVector (mergeTerms xs ys) = termsVector xs + termsVector ys := by
  induction xs generalizing ys with
  | nil => simp [mergeTerms]
  | cons t xs ih => rw [mergeTerms, termsVector_mergeTerm t.1 t.2 ih, termsVector_cons]

@[simp]
theorem vector_add (f g : Form) : (add f g).vector = f.vector + g.vector :=
  termsVector_mergeTerms f.terms g.terms

@[simp]
theorem vector_neg (f : Form) : (neg f).vector = -f.vector := by
  obtain ⟨terms⟩ := f
  simp only [vector, neg]
  induction terms with
  | nil => simp
  | cons t terms ih => rw [List.map_cons, termsVector_cons, ih, termsVector_cons, neg_add,
      Finsupp.single_neg]

@[simp]
theorem vector_sub (f g : Form) : (sub f g).vector = f.vector - g.vector := by
  rw [sub, vector_add, vector_neg, sub_eq_add_neg]

@[simp]
theorem vector_scale (f : Form) (k : Rat) : (f.scale k).vector = k • f.vector := by
  unfold scale
  split
  · next hk => simp [hk]
  · obtain ⟨terms⟩ := f
    simp only [vector]
    induction terms with
    | nil => simp
    | cons t terms ih =>
      rw [List.map_cons, termsVector_cons, ih, termsVector_cons, smul_add, Finsupp.smul_single,
        smul_eq_mul, mul_comm]

theorem sum_vector_addPairs (fs : List Form) :
    ((addPairs fs).map vector).sum = (fs.map vector).sum := by
  fun_induction addPairs fs with
  | case1 f g rest ih => simp [ih, add_assoc]
  | case2 => rfl

theorem vector_foldl_add (fs : List Form) (start : Form) :
    (fs.foldl add start).vector = start.vector + (fs.map vector).sum := by
  induction fs generalizing start with
  | nil => simp
  | cons f fs ih => rw [List.foldl_cons, ih, vector_add, List.map_cons, List.sum_cons, add_assoc]

theorem vector_sumLoop (fuel : Nat) (fs : List Form) :
    (sumLoop fuel fs).vector = (fs.map vector).sum := by
  fun_induction sumLoop fuel fs with
  | case1 => rfl
  | case2 => simp
  | case3 fs => simp [vector_foldl_add]
  | case4 fuel fs _ _ ih => rw [ih, sum_vector_addPairs]

theorem vector_sumAll (fs : List Form) : (sumAll fs).vector = (fs.map vector).sum :=
  vector_sumLoop fs.length fs

/-! ### Forms that are known by their vectors -/

theorem termsVector_apply_of_forall_ne {terms : List (Monomial × Rat)} {m : Monomial}
    (h : ∀ t ∈ terms, t.1 ≠ m) : termsVector terms m = 0 := by
  induction terms with
  | nil => rfl
  | cons t terms ih =>
    rw [termsVector_cons, Finsupp.add_apply, ih fun s hs => h s (List.mem_cons_of_mem _ hs),
      Finsupp.single_eq_of_ne' (h t List.mem_cons_self), AddZeroClass.add_zero]

/-- Where terms are in order, the vector has their coefficients. -/
theorem Sorted.vector_apply (hf : f.Sorted) {t : Monomial × Rat} (ht : t ∈ f.terms) :
    f.vector t.1 = t.2 := by
  obtain ⟨terms⟩ := f
  induction terms with
  | nil => cases ht
  | cons s terms ih =>
    obtain ⟨hs, htail⟩ := List.pairwise_cons.1 hf
    have hne : ∀ u ∈ terms, u.1 ≠ s.1 := by
      intro u hu heq
      have hlt := hs u hu
      rw [heq, Monomial.order_self] at hlt
      cases hlt
    rw [vector, termsVector_cons, Finsupp.add_apply]
    rcases List.mem_cons.1 ht with rfl | ht
    · rw [Finsupp.single_eq_same, termsVector_apply_of_forall_ne hne, Rat.add_zero]
    · rw [Finsupp.single_eq_of_ne (hne t ht), Rat.zero_add]
      exact ih htail ht

theorem mem_terms_iff (hf : f.Ordered) {t : Monomial × Rat} :
    t ∈ f.terms ↔ t.2 ≠ 0 ∧ f.vector t.1 = t.2 := by
  refine ⟨fun ht => ⟨(hf.noZeros t ht).1, hf.sorted.vector_apply ht⟩, fun ⟨hne, hvector⟩ => ?_⟩
  by_cases hmem : ∃ s ∈ f.terms, s.1 = t.1
  · obtain ⟨s, hs, heq⟩ := hmem
    have hcoefficient : s.2 = t.2 := by rw [← hf.sorted.vector_apply hs, heq, hvector]
    exact Prod.ext heq hcoefficient ▸ hs
  · refine absurd (hvector.symm.trans ?_) hne
    exact termsVector_apply_of_forall_ne fun s hs heq => hmem ⟨s, hs, heq⟩

/-- **Ordered forms with the same vector are equal.** -/
theorem Ordered.eq_of_vector (hf : f.Ordered) (hg : g.Ordered) (h : f.vector = g.vector) :
    f = g := by
  have hmem : ∀ t, t ∈ f.terms ↔ t ∈ g.terms := fun t => by
    rw [mem_terms_iff hf, mem_terms_iff hg, h]
  have hnodup : ∀ {h : Form}, h.Sorted → h.terms.Nodup := fun hh => hh.imp fun {s t} hlt heq => by
    rw [heq, Monomial.order_self] at hlt
    cases hlt
  have hterms : f.terms = g.terms := by
    refine ((List.perm_ext_iff_of_nodup (hnodup hf.sorted) (hnodup hg.sorted)).2
      hmem).eq_of_pairwise (fun s t _ _ hst hts => ?_) hf.sorted hg.sorted
    have hlt := Monomial.order_trans _ _ _ hst hts
    rw [Monomial.order_self] at hlt
    cases hlt
  cases f
  cases g
  exact congrArg Form.mk hterms

namespace Ordered

theorem zero : zero.Ordered := ⟨sorted_zero, over_zero _⟩

theorem ofTerm (m : Monomial) (q : Rat) : (ofTerm m q).Ordered :=
  ⟨sorted_ofTerm m q, over_ofTerm trivial q⟩

theorem add (hf : f.Ordered) (hg : g.Ordered) : (add f g).Ordered :=
  ⟨hf.sorted.add hg.sorted, hf.noZeros.add hg.noZeros⟩

theorem neg (hf : f.Ordered) : (neg f).Ordered := ⟨hf.sorted.neg, hf.noZeros.neg⟩

theorem sub (hf : f.Ordered) (hg : g.Ordered) : (sub f g).Ordered := hf.add hg.neg

theorem scale (hf : f.Ordered) (k : Rat) : (f.scale k).Ordered :=
  ⟨hf.sorted.scale k, hf.noZeros.scale k⟩

theorem mul (f g : Form) : (mul f g).Ordered :=
  ⟨sorted_mulWith (sorted_normalize _) f g, noZeros_mulWith (noZeros_normalize _) f g⟩

end Ordered

/-! ### Products -/

variable {normalize : Rat → List (Atom × Int) → Form}

/-- What products of atoms are normalised to is linear in the coefficient. -/
def Linear (normalize : Rat → List (Atom × Int) → Form) : Prop :=
  ∀ c factors, (normalize c factors).vector = c • (normalize 1 factors).vector

/-- The vector of the product of two monomials. -/
noncomputable def productVector (normalize : Rat → List (Atom × Int) → Form) (m l : Monomial) :
    Monomial →₀ Rat := (mulTermWith normalize (m, 1) (l, 1)).vector

/-- The bilinear product of vectors that extends the product of monomials. -/
noncomputable def vectorProduct (normalize : Rat → List (Atom × Int) → Form) :
    (Monomial →₀ Rat) →ₗ[Rat] (Monomial →₀ Rat) →ₗ[Rat] (Monomial →₀ Rat) :=
  linearCombination Rat fun m => linearCombination Rat fun l => productVector normalize m l

theorem vectorProduct_single (m l : Monomial) (q r : Rat) :
    vectorProduct normalize (single m q) (single l r) = (q * r) • productVector normalize m l := by
  simp [vectorProduct, mul_smul]

theorem vector_mulTermWith (hlinear : Linear normalize) (s t : Monomial × Rat) :
    (mulTermWith normalize s t).vector = (s.2 * t.2) • productVector normalize s.1 t.1 := by
  unfold productVector mulTermWith
  dsimp only
  rw [mul_one]
  split
  · simp
  · split
    · simp
    · exact hlinear _ _

theorem sum_vector_row (hlinear : Linear normalize) (s : Monomial × Rat)
    (ts : List (Monomial × Rat)) : ((ts.map fun t => mulTermWith normalize s t).map vector).sum =
      vectorProduct normalize (single s.1 s.2) (termsVector ts) := by
  induction ts with
  | nil => simp
  | cons t ts ih =>
    rw [List.map_cons, List.map_cons, List.sum_cons, ih, termsVector_cons, map_add,
      vector_mulTermWith hlinear, vectorProduct_single]

/-- The product of two forms is bilinear. -/
theorem vector_mulWith (hlinear : Linear normalize) (f g : Form) :
    (mulWith normalize f g).vector = vectorProduct normalize f.vector g.vector := by
  obtain ⟨ss⟩ := f
  rw [mulWith, vector_sumAll, vector, vector]
  dsimp only
  induction ss with
  | nil => simp
  | cons s ss ih =>
    rw [List.flatMap_cons, List.map_append, List.sum_append, sum_vector_row hlinear, ih,
      termsVector_cons, map_add, LinearMap.add_apply]

theorem vector_sharedTerm (c : Rat) (parts : List Share) :
    (sharedTerm c parts).vector = c • (sharedTerm 1 parts).vector := by
  rw [sharedTerm, sharedTerm, vector_ofTerm, vector_ofTerm, sharedCoefficient_eq,
    sharedCoefficient_eq, one_mul, Finsupp.smul_single, smul_eq_mul]

theorem linear_normalizeWith {multiply : Form → Form → Form} {power : Form → Int → Option Form}
    (hmultiply : ∀ f g h : Form, ∀ c : Rat, f.vector = c • g.vector →
      (multiply f h).vector = c • (multiply g h).vector) :
    Linear (normalizeWith multiply power) := by
  intro c factors
  rcases eq_or_ne c 0 with rfl | hc
  · simp [normalizeWith]
  · rw [normalizeWith_eq _ _ hc, normalizeWith_eq _ _ one_ne_zero]
    dsimp only
    split
    · exact vector_sharedTerm c _
    · exact hmultiply _ _ _ c (vector_sharedTerm c _)

/-- **Normalising is linear in the coefficient.** -/
theorem linear_normalize (n : Nat) : Linear (Form.normalize n) := by
  induction n with
  | zero => exact linear_normalizeWith fun _ _ _ _ h => h
  | succ n ih =>
    refine linear_normalizeWith fun f g h c heq => ?_
    rw [vector_mulWith ih, vector_mulWith ih, heq, map_smul, LinearMap.smul_apply]

theorem linear_ofFactors : Linear ofFactors := fun c _ => linear_normalize _ c _

/-- The product of forms, as a product of vectors. -/
theorem vector_mul (f g : Form) : (mul f g).vector = vectorProduct ofFactors f.vector g.vector := by
  rw [mul_eq_mulWith, vector_mulWith linear_ofFactors]

end Form

end Resolvent

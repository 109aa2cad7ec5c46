import Resolvent.Form.Coefficients
import Resolvent.Proofs.Expression.Along
import Resolvent.Proofs.Form.Constant
import Resolvent.Proofs.Form.Units

/-!
# Coefficients of polynomials

The coefficients of a form as a polynomial in an unknown are sums of its terms without the unknown
(`Form.exists_terms_of_mem_polynomial?`), and the leading one is not zero unless it is the only one
(`Form.getLast_polynomial?_ne_zero`).  The coefficients of a multiple are the multiples of the
coefficients (`Form.polynomial?_scale`).

A form whose terms are rational multiples of powers of an unknown (`Form.IsPolynomial`) has the
coefficients that one sees (`Form.IsPolynomial.polynomial?_eq`).
-/

namespace Resolvent.Form

variable {f : Form} {unknown maxDegree : Nat} {ks : List Form}

theorem mem_of_mem_dropZeros {g : Form} {fs : List Form} (h : g ∈ dropZeros fs) : g ∈ fs := by
  induction fs with
  | nil => exact h
  | cons f fs ih =>
    rw [dropZeros] at h
    split at h
    · split at h <;> grind
    · grind

/-- Where two coefficients are left, the last is not zero. -/
theorem getLast_dropZeros_ne_zero {fs : List Form} (h : 2 ≤ (dropZeros fs).length) :
    ∃ k, (dropZeros fs).getLast? = some k ∧ k ≠ zero := by
  induction fs with
  | nil => simp [dropZeros] at h
  | cons f fs ih =>
    rw [dropZeros] at h ⊢
    split at h
    · next g hg =>
      split at h
      · simp at h
      · next hne =>
        rw [if_neg hne]
        exact ⟨g, rfl, fun hzero => hne (isZero_iff.2 hzero)⟩
    · next hsingle =>
      have hrest : 2 ≤ (dropZeros fs).length := by
        rcases hfs : dropZeros fs with - | ⟨g, - | ⟨g', gs⟩⟩
        · rw [hfs] at h
          simp at h
        · exact absurd hfs (hsingle g)
        · simp
      obtain ⟨k, hk, hne⟩ := ih hrest
      exact ⟨k, by rw [List.getLast?_cons, hk]; rfl, hne⟩

/-- A coefficient is the sum of some terms of the form, without the unknown. -/
theorem exists_terms_of_mem_polynomial? (h : f.polynomial? unknown maxDegree = some ks) {k : Form}
    (hk : k ∈ ks) : ∃ ts : List (Monomial × Rat), (∀ t ∈ ts, t ∈ f.terms) ∧
      k = sumAll (ts.map fun t => ofTerm (t.1.without (.symbol unknown)) t.2) := by
  obtain ⟨terms, hterms, rfl⟩ := Option.map_eq_some_iff.1 h
  obtain ⟨d, -, rfl⟩ := List.mem_map.1 (mem_of_mem_dropZeros hk)
  refine ⟨(terms.filter fun t => t.1 == d).map Prod.snd, fun t ht => ?_, ?_⟩
  · obtain ⟨s, hs, rfl⟩ := List.mem_map.1 ht
    obtain ⟨u, hu, hus⟩ := exists_of_mem_mapM hterms (List.mem_filter.1 hs).1
    obtain ⟨e, -, rfl⟩ := Option.map_eq_some_iff.1 hus
    exact hu
  · rw [List.map_map]
    rfl

theorem getLast_polynomial?_ne_zero (h : f.polynomial? unknown maxDegree = some ks)
    (hlength : 2 ≤ ks.length) : ∃ k, ks.getLast? = some k ∧ k ≠ zero := by
  obtain ⟨terms, -, rfl⟩ := Option.map_eq_some_iff.1 h
  exact getLast_dropZeros_ne_zero hlength

theorem noZeros_of_mem_polynomial? (h : f.polynomial? unknown maxDegree = some ks) {k : Form}
    (hk : k ∈ ks) : k.NoZeros := by
  obtain ⟨ts, -, rfl⟩ := exists_terms_of_mem_polynomial? h hk
  refine over_sumAll fun g hg => ?_
  obtain ⟨t, -, rfl⟩ := List.mem_map.1 hg
  exact over_ofTerm trivial _

theorem UnitReduced.polynomial (hf : f.UnitReduced)
    (h : f.polynomial? unknown maxDegree = some ks) {k : Form} (hk : k ∈ ks) : k.UnitReduced := by
  obtain ⟨ts, hts, rfl⟩ := exists_terms_of_mem_polynomial? h hk
  refine unitReduced_iff.2 (monomialsIn_sumAll fun g hg => ?_)
  obtain ⟨t, ht, rfl⟩ := List.mem_map.1 hg
  exact monomialsIn_ofTerm ((unitReduced_iff.1 hf t (hts t ht)).without _) _

/-! ### Multiples -/

section Multiples

variable {k : Rat}

theorem terms_scale (hk : k ≠ 0) (f : Form) :
    (f.scale k).terms = f.terms.map fun t => (t.1, t.2 * k) := by
  rw [scale, if_neg hk]

theorem mergeTerm_scale (hk : k ≠ 0) {rest rest' : List (Monomial × Rat) → List (Monomial × Rat)}
    (hrest : ∀ ys, rest' (ys.map fun t => (t.1, t.2 * k)) = (rest ys).map fun t => (t.1, t.2 * k))
    (m : Monomial) (q : Rat) (ys : List (Monomial × Rat)) :
    mergeTerm m (q * k) rest' (ys.map fun t => (t.1, t.2 * k)) =
      (mergeTerm m q rest ys).map fun t => (t.1, t.2 * k) := by
  induction ys with
  | nil => simpa [mergeTerm] using hrest []
  | cons y ys ih =>
    obtain ⟨n, r⟩ := y
    rw [List.map_cons, mergeTerm, mergeTerm]
    cases m.order n with
    | lt => exact congrArg _ (hrest ((n, r) :: ys))
    | gt => exact congrArg _ ih
    | eq =>
      dsimp only
      rw [← add_mul]
      by_cases hzero : q + r = 0
      · rw [if_pos hzero, if_pos (by rw [hzero, zero_mul]), hrest]
      · rw [if_neg hzero, if_neg (mul_ne_zero hzero hk), List.map_cons, hrest]

theorem add_scale (hk : k ≠ 0) (f g : Form) : add (f.scale k) (g.scale k) = (add f g).scale k := by
  obtain ⟨xs⟩ := f
  obtain ⟨ys⟩ := g
  rw [scale, scale, scale, if_neg hk, if_neg hk, if_neg hk, add, add, mk.injEq]
  induction xs generalizing ys with
  | nil => rfl
  | cons x xs ih => exact mergeTerm_scale hk ih x.1 x.2 ys

theorem addPairs_scale (hk : k ≠ 0) (fs : List Form) :
    addPairs (fs.map (scale · k)) = (addPairs fs).map (scale · k) := by
  induction fs using addPairs.induct with
  | case1 f g rest ih => simp only [List.map_cons, addPairs, add_scale hk, ih]
  | case2 fs hshort =>
    rcases fs with - | ⟨f, - | ⟨g, rest⟩⟩
    · rfl
    · rfl
    · exact absurd rfl (hshort f g rest)

theorem foldl_add_scale (hk : k ≠ 0) (fs : List Form) (start : Form) :
    (fs.map (scale · k)).foldl add (start.scale k) = (fs.foldl add start).scale k := by
  induction fs generalizing start with
  | nil => rfl
  | cons f fs ih => rw [List.map_cons, List.foldl_cons, List.foldl_cons, add_scale hk, ih]

theorem sumLoop_scale (hk : k ≠ 0) (fuel : Nat) (fs : List Form) :
    sumLoop fuel (fs.map (scale · k)) = (sumLoop fuel fs).scale k := by
  have hzero : zero.scale k = zero := by
    rw [scale, if_neg hk]
    rfl
  fun_induction sumLoop fuel fs with
  | case1 => simp [sumLoop, hzero]
  | case2 => simp [sumLoop]
  | case3 fs hempty hsingle =>
    rw [← foldl_add_scale hk, hzero]
    rcases fs with - | ⟨f, - | ⟨g, rest⟩⟩
    · exact absurd rfl hempty
    · exact absurd rfl (hsingle f)
    · rfl
  | case4 fuel fs hempty hsingle ih =>
    rw [← ih, ← addPairs_scale hk]
    rcases fs with - | ⟨f, - | ⟨g, rest⟩⟩
    · exact absurd rfl hempty
    · exact absurd rfl (hsingle f)
    · rfl

theorem sumAll_scale (hk : k ≠ 0) (fs : List Form) :
    sumAll (fs.map (scale · k)) = (sumAll fs).scale k := by
  rw [sumAll, List.length_map, sumLoop_scale hk, sumAll]

theorem ofTerm_scale (hk : k ≠ 0) (m : Monomial) (q : Rat) :
    ofTerm m (q * k) = (ofTerm m q).scale k := by
  rw [ofTerm, ofTerm]
  by_cases hq : q = 0
  · rw [if_pos hq, if_pos (by rw [hq, zero_mul]), scale, if_neg hk]
    rfl
  · rw [if_neg hq, if_neg (mul_ne_zero hq hk), scale, if_neg hk]
    rfl

theorem dropZeros_scale (hk : k ≠ 0) (fs : List Form) :
    dropZeros (fs.map (scale · k)) = (dropZeros fs).map (scale · k) := by
  have hisZero : ∀ g : Form, (g.scale k).isZero = g.isZero := by
    intro g
    rw [isZero, terms_scale hk, List.isEmpty_map, isZero]
  induction fs with
  | nil => rfl
  | cons f fs ih =>
    rw [List.map_cons, dropZeros, dropZeros, ih]
    rcases dropZeros fs with - | ⟨g, - | ⟨g', gs⟩⟩
    · rfl
    · rw [List.map_cons, List.map_nil]
      dsimp only
      rw [hisZero]
      split <;> rfl
    · rfl

/-- The coefficients of a multiple are the multiples of the coefficients. -/
theorem polynomial?_scale (hk : k ≠ 0) (h : f.polynomial? unknown maxDegree = some ks) :
    (f.scale k).polynomial? unknown maxDegree = some (ks.map (scale · k)) := by
  obtain ⟨terms, hterms, rfl⟩ := Option.map_eq_some_iff.1 h
  have hscaled : (f.scale k).terms.mapM (fun t =>
      (degreeIn? unknown maxDegree t.1).map fun d => (d, t)) =
        some (terms.map fun t => (t.1, t.2.1, t.2.2 * k)) := by
    have hmap := congrArg (List.map (Option.map fun x : Nat × Monomial × Rat =>
      (x.1, x.2.1, x.2.2 * k))) (mapM_eq_some_iff.1 hterms)
    rw [mapM_eq_some_iff, terms_scale hk, List.map_map, List.map_map]
    rw [List.map_map, List.map_map] at hmap
    refine Eq.trans (List.map_congr_left fun t _ => ?_) hmap
    simp only [Function.comp_apply, Option.map_map]
    rfl
  rw [polynomial?, hscaled, Option.map_some, ← dropZeros_scale hk, List.map_map]
  congr 2
  refine List.map_congr_left fun d _ => ?_
  rw [Function.comp_apply, ← sumAll_scale hk, List.filter_map, List.map_map, List.map_map]
  congr 1
  refine List.map_congr_left fun t _ => ?_
  exact ofTerm_scale hk _ _

end Multiples
end Resolvent.Form

namespace Resolvent

/-! ### Polynomials with rational coefficients -/

/-- A power of an unknown. -/
def Monomial.power (unknown i : Nat) : Monomial := ⟨if i = 0 then [] else [(.symbol unknown, i)]⟩

theorem Monomial.exponentOf_power (unknown i : Nat) :
    (Monomial.power unknown i).exponentOf (.symbol unknown) = i := by
  unfold power exponentOf
  split_ifs with hi
  · simp [hi]
  · simp

theorem Monomial.power_injective (unknown : Nat) : Function.Injective (Monomial.power unknown) := by
  intro i j h
  have hexponent := congrArg (Monomial.exponentOf · (.symbol unknown)) h
  simpa only [Monomial.exponentOf_power, Nat.cast_inj] using hexponent

theorem Monomial.without_power (unknown i : Nat) :
    (Monomial.power unknown i).without (.symbol unknown) = Monomial.one := by
  unfold power without one
  split_ifs <;> simp

namespace Form

/-- The form is the polynomial in the unknown with the rational coefficients, the constant first
and the leading one not zero. -/
structure IsPolynomial (f : Form) (unknown : Nat) (qs : List Rat) : Prop where
  /-- All terms are multiples of powers of the unknown. -/
  power : ∀ t ∈ f.terms, ∃ i < qs.length, t.1 = Monomial.power unknown i
  /-- The multiples of one power add up to the coefficient. -/
  coefficient : ∀ i < qs.length,
    ((f.terms.filter fun t => t.1 = Monomial.power unknown i).map Prod.snd).sum = qs.getD i 0
  /-- The leading coefficient is not zero. -/
  leading : ∀ q ∈ qs.getLast?, q ≠ 0

variable {f : Form} {unknown : Nat} {qs : List Rat}

theorem degreeIn?_power {i maxDegree : Nat} (hi : i ≤ maxDegree) :
    degreeIn? unknown maxDegree (Monomial.power unknown i) = some i := by
  rw [degreeIn?, Monomial.exponentOf_power, Monomial.without_power]
  exact if_pos ⟨hi, rfl⟩

/-- The sum of the multiples of a power is a coefficient, or zero. -/
theorem IsPolynomial.coefficient_eq (hf : f.IsPolynomial unknown qs) (i : Nat) :
    ((f.terms.filter fun t => t.1 = Monomial.power unknown i).map Prod.snd).sum = qs.getD i 0 := by
  rcases Nat.lt_or_ge i qs.length with hi | hi
  · exact hf.coefficient i hi
  · have hnone : f.terms.filter (fun t => t.1 = Monomial.power unknown i) = [] := by
      refine List.filter_eq_nil_iff.2 fun t ht heq => ?_
      obtain ⟨j, hj, hpower⟩ := hf.power t ht
      have hij := Monomial.power_injective unknown (hpower.symm.trans (of_decide_eq_true heq))
      omega
    rw [hnone, List.getD_eq_getElem?_getD, List.getElem?_eq_none hi]
    rfl

theorem IsPolynomial.polynomial?_eq_dropZeros (hf : f.IsPolynomial unknown qs) {n : Nat}
    (hn : qs.length ≤ n + 1) : f.polynomial? unknown n =
      some (dropZeros ((List.range (n + 1)).map fun i => ofRat (qs.getD i 0))) := by
  have hterms : f.terms.mapM (fun t => (degreeIn? unknown n t.1).map fun d => (d, t)) =
      some (f.terms.map fun t => ((t.1.exponentOf (.symbol unknown)).toNat, t)) := by
    rw [mapM_eq_some_iff, List.map_map]
    refine List.map_congr_left fun t ht => ?_
    obtain ⟨i, hi, hpower⟩ := hf.power t ht
    rw [Function.comp_apply, hpower, degreeIn?_power (by omega), Monomial.exponentOf_power]
    rfl
  rw [polynomial?, hterms, Option.map_some]
  congr 2
  refine List.map_congr_left fun d _ => ?_
  rw [← hf.coefficient_eq d, ← sumAll_ofRat, List.filter_map, List.map_map, List.map_map]
  have hfilter : f.terms.filter ((fun t => t.1 == d) ∘ fun t =>
      ((t.1.exponentOf (.symbol unknown)).toNat, t)) =
        f.terms.filter fun t => t.1 = Monomial.power unknown d := by
    refine List.filter_congr fun t ht => ?_
    obtain ⟨i, -, hpower⟩ := hf.power t ht
    rw [Function.comp_apply, hpower, Monomial.exponentOf_power, Int.toNat_natCast, beq_eq_decide]
    exact decide_eq_decide.2 (Monomial.power_injective unknown).eq_iff.symm
  rw [hfilter]
  congr 1
  refine List.map_congr_left fun t ht => ?_
  have hpower := of_decide_eq_true (List.mem_filter.1 ht).2
  simp only [Function.comp_apply, hpower, Monomial.without_power]
  rfl

theorem dropZeros_replicate (m : Nat) : dropZeros (List.replicate (m + 1) zero) = [zero] := by
  induction m with
  | zero => rfl
  | succ m ih =>
    rw [List.replicate_succ, dropZeros, ih]
    rfl

/-- Zeros behind a leading coefficient other than zero are dropped. -/
theorem dropZeros_append {fs : List Form} (hne : fs ≠ []) (hleading : ∀ g ∈ fs.getLast?, g ≠ zero)
    (m : Nat) : dropZeros (fs ++ List.replicate m zero) = fs := by
  induction fs with
  | nil => exact absurd rfl hne
  | cons f fs ih =>
    rcases fs with - | ⟨g, fs⟩
    · cases m with
      | zero => rfl
      | succ m =>
        rw [List.singleton_append, dropZeros, dropZeros_replicate]
        rfl
    · rw [List.cons_append, dropZeros, ih (List.cons_ne_nil g fs) hleading]
      rcases fs with - | ⟨h, fs⟩
      · have hg : ¬ g.isZero = true := fun hzero => hleading g rfl (isZero_iff.1 hzero)
        dsimp only
        rw [if_neg hg]
      · rfl

/-- The coefficients are those that solving reads off, where the degree is not too large. -/
theorem IsPolynomial.polynomial?_eq (hf : f.IsPolynomial unknown qs) (hne : qs ≠ []) {n : Nat}
    (hn : qs.length ≤ n + 1) : f.polynomial? unknown n = some (qs.map ofRat) := by
  have hpadded : (List.range (n + 1)).map (fun i => ofRat (qs.getD i 0)) =
      qs.map ofRat ++ List.replicate (n + 1 - qs.length) zero := by
    refine List.ext_getElem (by simp; omega) fun i hi _ => ?_
    rw [List.getElem_map, List.getElem_range, List.getElem_append]
    split
    · next hlt =>
      rw [List.getElem_map, List.getD_eq_getElem?_getD,
        List.getElem?_eq_getElem (by simpa using hlt), Option.getD_some]
    · next hge =>
      rw [List.getElem_replicate, List.getD_eq_getElem?_getD,
        List.getElem?_eq_none (by simpa using hge), Option.getD_none, ofRat_zero]
  rw [hf.polynomial?_eq_dropZeros hn, hpadded, dropZeros_append (by simpa using hne)]
  intro g hg
  rw [List.getLast?_map] at hg
  obtain ⟨q, hq, rfl⟩ := Option.map_eq_some_iff.1 hg
  exact ofRat_ne_zero (hf.leading q hq)

end Form

end Resolvent

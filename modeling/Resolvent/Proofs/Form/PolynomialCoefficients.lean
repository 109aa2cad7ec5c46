import Resolvent.Proofs.Form.LinearCoefficients
import Resolvent.Proofs.Form.Coefficients
import Resolvent.Proofs.Form.Reachable
import Resolvent.Proofs.Form.RepeatedProduct

/-!
# Polynomials read off forms

A term has a degree in an unknown unless it has the unknown with an exponent that is negative or too
large, or the unknown is nested in one of its atoms (`Form.degreeIn?_eq_none_iff`).  Where each term
has a degree, the form is the sum of its coefficients times the powers of the unknown
(`Form.polynomial?_spec`): a term is what is left of it without the unknown, times the power of the
unknown (`Form.mul_ofTerm_without_repeated`), and dropping coefficients that are zero drops nothing
from the sum (`Form.exists_eq_dropZeros_append`).
-/

namespace Resolvent

/-- The monomial is no multiple of a power of the unknown with a degree up to a bound: it has the
unknown with an exponent that is negative or beyond the bound, or the unknown is nested in an
atom. -/
def Monomial.IsNonpolynomial (unknown maxDegree : Nat) (m : Monomial) : Prop :=
  (∃ k, (.symbol unknown, k) ∈ m.factors ∧ (k < 0 ∨ (maxDegree : Int) < k)) ∨
  ∃ x ∈ m.factors, x.1.IsCompound ∧ x.1.mentions unknown = true

namespace Form

open Finsupp (single)

variable {unknown maxDegree d : Nat} {m : Monomial}

/-! ### Degrees -/

theorem mentions_without_symbol : (m.without (.symbol unknown)).mentions unknown = false ↔
    ∀ x ∈ m.factors, x.1.IsCompound → x.1.mentions unknown = false := by
  rw [Monomial.mentions_eq_false_iff]
  constructor
  · intro h x hx hcompound
    refine h x (Monomial.mem_without.2 ⟨hx, fun heq => ?_⟩)
    rw [heq] at hcompound
    exact hcompound
  · intro h x hx
    obtain ⟨hx, hne⟩ := Monomial.mem_without.1 hx
    rw [← Bool.not_eq_true, Atom.mentions_iff]
    rintro (heq | ⟨hcompound, hmentions⟩)
    · exact hne heq
    · rw [h x hx hcompound] at hmentions
      cases hmentions

/-- The degree of a term is the exponent of the unknown, where it is not nested elsewhere. -/
theorem degreeIn?_eq_some_iff : degreeIn? unknown maxDegree m = some d ↔
    m.exponentOf (.symbol unknown) = d ∧ d ≤ maxDegree ∧
      (m.without (.symbol unknown)).mentions unknown = false := by
  rw [degreeIn?]
  rcases m.exponentOf (.symbol unknown) with e | e
  · dsimp only
    split_ifs with h <;> grind
  · simp

theorem mem_of_exponentOf_ne_zero {a : Atom} (h : m.exponentOf a ≠ 0) :
    (a, m.exponentOf a) ∈ m.factors := by
  unfold Monomial.exponentOf at h ⊢
  split
  · next b k hfind =>
    obtain rfl : b = a := by simpa using List.find?_some hfind
    exact List.mem_of_find?_eq_some hfind
  · next hfind =>
    rw [hfind] at h
    exact absurd rfl h

/-- **A term has a degree unless the unknown is out of range in it or nested in it.** -/
theorem degreeIn?_eq_none_iff (hm : Monomial.Sorted m.factors) :
    degreeIn? unknown maxDegree m = none ↔ m.IsNonpolynomial unknown maxDegree := by
  rw [Option.eq_none_iff_forall_ne_some]
  constructor
  · intro h
    by_contra hnot
    simp only [Monomial.IsNonpolynomial, not_or, not_exists, not_and] at hnot
    obtain ⟨hrange, hnested⟩ := hnot
    have hbounds : 0 ≤ m.exponentOf (.symbol unknown) ∧
        m.exponentOf (.symbol unknown) ≤ maxDegree := by
      by_cases hzero : m.exponentOf (.symbol unknown) = 0
      · omega
      · have := hrange _ (mem_of_exponentOf_ne_zero hzero)
        omega
    refine h (m.exponentOf (.symbol unknown)).toNat (degreeIn?_eq_some_iff.2
      ⟨by omega, by omega, mentions_without_symbol.2 fun x hx hcompound => ?_⟩)
    exact Bool.eq_false_iff.2 (hnested x hx hcompound)
  · intro h d hd
    obtain ⟨hexponent, hle, hmentions⟩ := degreeIn?_eq_some_iff.1 hd
    rcases h with ⟨k, hk, hrange⟩ | ⟨x, hx, hcompound, hnested⟩
    · rw [Monomial.exponentOf_of_mem hm hk] at hexponent
      omega
    · rw [mentions_without_symbol.1 hmentions x hx hcompound] at hnested
      cases hnested

/-! ### Powers of the unknown -/

/-- Powers of one atom are collected to one power. -/
theorem collectFactors_pair {a : Atom} {k l : Int} (h : k + l ≠ 0) :
    Monomial.collectFactors [(a, k), (a, l)] = [(a, k + l)] := by
  simpa [Monomial.collectFactors, Monomial.insertFactor, Atom.order_self] using h

/-- The product of copies of an unknown is the power with that exponent, if it is a word. -/
theorem repeated_symbol (hd : Width.isInt32 d = true) :
    (symbol unknown).repeated d = ofTerm (Monomial.power unknown d) 1 := by
  induction d with
  | zero => rfl
  | succ d ih =>
    have hword : Width.isInt32 d = true := by
      simp only [Width.isInt32, decide_eq_true_eq] at hd ⊢
      omega
    have hreduced : Monomial.Reduced ⟨[(.symbol unknown, ((d + 1 : Nat) : Int))]⟩ :=
      Monomial.reduced_singleton (show ((d + 1 : Nat) : Int) ≠ 0 by omega) hd
    rw [repeated, ih hword]
    change _ = ofTerm ⟨[(.symbol unknown, ((d + 1 : Nat) : Int))]⟩ 1
    rcases Nat.eq_zero_or_pos d with rfl | hpos
    · exact (one_mul_ofAtom hreduced).trans (symbol_eq unknown)
    · have hproduct := normalize_of_collectFactors hreduced.settled
        (collectFactors_pair (k := d) (l := 1) (by omega))
      rw [symbol_eq, Monomial.power, if_neg (by omega), ofTerm_eq one_ne_zero,
        ofTerm_eq one_ne_zero]
      simp [mul, mulWith, sumAll, sumLoop, mulTermWith, Monomial.isOne, hproduct]

/-- A term of a degree is what is left of it without the unknown, times the power of the
unknown. -/
theorem mul_ofTerm_without_repeated (hm : m.Settled)
    (hd : m.exponentOf (.symbol unknown) = d) (c : Rat) :
    mul (ofTerm (m.without (.symbol unknown)) c) ((symbol unknown).repeated d) = ofTerm m c := by
  rcases Nat.eq_zero_or_pos d with rfl | hpos
  · have hne : ∀ x ∈ m.factors, x.1 ≠ .symbol unknown := by
      rintro ⟨a, k⟩ hx rfl
      have hzero := (Monomial.exponentOf_of_mem hm.arranged.sorted hx).symm.trans hd
      exact Monomial.ne_zero_of_exponentFits (hm.arranged.exponents _ hx) hzero
    rw [Monomial.without_of_forall_ne hne]
    exact (Ordered.ofTerm m c).mul_one
  · have hmem := mem_of_exponentOf_ne_zero (m := m) (a := .symbol unknown) (by omega)
    rw [hd] at hmem
    rw [repeated_symbol (hm.words _ hmem), Monomial.power, if_neg (by omega)]
    exact mul_ofTerm_without hm hmem c

/-! ### Zeros at the end -/

/-- Nothing but zeros is dropped at the end. -/
theorem exists_eq_dropZeros_append (fs : List Form) :
    ∃ n, fs = dropZeros fs ++ List.replicate n zero := by
  induction fs with
  | nil => exact ⟨0, rfl⟩
  | cons f fs ih =>
    obtain ⟨n, hn⟩ := ih
    rw [dropZeros]
    split
    · next g hg =>
      rw [hg] at hn
      split
      · next hzero =>
        exact ⟨n + 1, by rw [hn, isZero_iff.1 hzero]; rfl⟩
      · exact ⟨n, by rw [hn]; rfl⟩
    · exact ⟨n, congrArg (f :: ·) hn⟩

theorem dropZeros_ne_nil {fs : List Form} (h : fs ≠ []) : dropZeros fs ≠ [] := by
  cases fs with
  | nil => exact absurd rfl h
  | cons f fs =>
    rw [dropZeros]
    split
    · split <;> exact List.cons_ne_nil _ _
    · exact List.cons_ne_nil _ _

theorem length_dropZeros_le (fs : List Form) : (dropZeros fs).length ≤ fs.length := by
  obtain ⟨n, hn⟩ := exists_eq_dropZeros_append fs
  have hlength := congrArg List.length hn
  rw [List.length_append] at hlength
  omega

/-- A coefficient that is not zero is not dropped. -/
theorem lt_length_dropZeros {fs : List Form} {c : Form} (hd : fs[d]? = some c) (hc : c ≠ zero) :
    d < (dropZeros fs).length := by
  obtain ⟨n, hn⟩ := exists_eq_dropZeros_append fs
  by_contra hge
  rw [hn, List.getElem?_append_right (by omega), List.getElem?_replicate] at hd
  split at hd
  · exact hc (Option.some.inj hd).symm
  · cases hd

/-- Dropping zeros drops nothing from a sum of multiples. -/
theorem vector_sum_dropZeros (fs : List Form) (p : Nat → Form) :
    (sumAll ((dropZeros fs).mapIdx fun d c => mul c (p d))).vector =
      (sumAll (fs.mapIdx fun d c => mul c (p d))).vector := by
  obtain ⟨n, hn⟩ := exists_eq_dropZeros_append fs
  have hzeros : ∀ v ∈ ((List.replicate n zero).mapIdx fun d c =>
      mul c (p (d + (dropZeros fs).length))).map vector, v = 0 := by
    intro v hv
    obtain ⟨g, hg, rfl⟩ := List.mem_map.1 hv
    obtain ⟨i, hi, rfl⟩ := List.mem_mapIdx.1 hg
    rw [List.getElem_replicate, vector_mul, vector_zero, map_zero, LinearMap.zero_apply]
  conv_rhs => rw [hn]
  rw [vector_sumAll, vector_sumAll, List.mapIdx_append, List.map_append, List.sum_append,
    List.sum_eq_zero hzeros, AddZeroClass.add_zero]

/-! ### The coefficients -/

variable {f : Form} {ks : List Form} {terms : List (Nat × Monomial × Rat)}

theorem polynomial?_eq_none_iff_degree : f.polynomial? unknown maxDegree = none ↔
    ∃ t ∈ f.terms, degreeIn? unknown maxDegree t.1 = none := by
  rw [polynomial?, Option.map_eq_none_iff]
  exact List.mapM_label_eq_none_iff

/-- A term that is not linear in an unknown that it has a degree in has at least degree two. -/
theorem two_le_of_isNonlinear (hm : m.Arranged)
    (hd : degreeIn? unknown maxDegree m = some d) (h : m.IsNonlinear [unknown]) : 2 ≤ d := by
  obtain ⟨hexponent, -, hmentions⟩ := degreeIn?_eq_some_iff.1 hd
  rcases h with ⟨u, hu, k, hk, hone⟩ | ⟨u, hu, w, hw, hne, -⟩ | ⟨u, hu, x, hx, hcompound, hnested⟩
  · obtain rfl := List.mem_singleton.1 hu
    have hzero := Monomial.ne_zero_of_exponentFits (hm.exponents _ hk)
    rw [Monomial.exponentOf_of_mem hm.sorted hk] at hexponent
    dsimp only at hzero
    omega
  · exact absurd ((List.mem_singleton.1 hu).trans (List.mem_singleton.1 hw).symm) hne
  · obtain rfl := List.mem_singleton.1 hu
    rw [mentions_without_symbol.1 hmentions x hx hcompound] at hnested
    cases hnested

/-- The terms of a degree, without the unknown, make up a coefficient. -/
def coefficientOfDegree (unknown : Nat) (terms : List (Nat × Monomial × Rat)) (d : Nat) : Form :=
  sumAll ((terms.filter fun t => t.1 == d).map fun t =>
    ofTerm (t.2.1.without (.symbol unknown)) t.2.2)

section Spec

variable (hdegrees : ∀ t ∈ terms, degreeIn? unknown maxDegree t.2.1 = some t.1)

include hdegrees

theorem mentions_coefficientOfDegree (d : Nat) :
    (coefficientOfDegree unknown terms d).mentions unknown = false := by
  refine mentions_sumAll_eq_false fun g hg => ?_
  obtain ⟨t, ht, rfl⟩ := List.mem_map.1 hg
  have hdegree := hdegrees t (List.mem_filter.1 ht).1
  exact mentions_ofTerm_eq_false (degreeIn?_eq_some_iff.1 hdegree).2.2 _

variable (hsettled : f.MonomialsIn Monomial.Settled) (hterms : terms.map Prod.snd = f.terms)

include hsettled hterms

theorem vector_mul_coefficientOfDegree (d : Nat) :
    (mul (coefficientOfDegree unknown terms d) ((symbol unknown).repeated d)).vector =
      ((terms.filter fun t => t.1 == d).map fun t => single t.2.1 t.2.2).sum := by
  refine vector_mul_coefficient fun t ht => ?_
  obtain ⟨ht, hd⟩ := List.mem_filter.1 ht
  have hmem : t.2 ∈ f.terms := hterms ▸ List.mem_map_of_mem ht
  have hdegree := (hdegrees t ht).trans (congrArg some (eq_of_beq hd))
  exact mul_ofTerm_without_repeated (hsettled _ hmem) (degreeIn?_eq_some_iff.1 hdegree).1 _

/-- The form is the sum of its coefficients times the powers of the unknown. -/
theorem vector_eq_sum_coefficients :
    f.vector = ((List.range (maxDegree + 1)).map fun d =>
      (mul (coefficientOfDegree unknown terms d) ((symbol unknown).repeated d)).vector).sum := by
  have hmem : ∀ t ∈ terms, t.1 ∈ List.range (maxDegree + 1) := fun t ht => by
    have := (degreeIn?_eq_some_iff.1 (hdegrees t ht)).2.1
    rw [List.mem_range]
    omega
  rw [vector_eq_sum_labels hterms List.nodup_range hmem]
  congr 1
  refine List.map_congr_left fun d _ => ?_
  exact (vector_mul_coefficientOfDegree hdegrees hsettled hterms d).symm

/-- The coefficient of the degree of a term is not zero. -/
theorem coefficientOfDegree_ne_zero (hf : f.Ordered) {t : Nat × Monomial × Rat} (ht : t ∈ terms) :
    coefficientOfDegree unknown terms t.1 ≠ zero := by
  intro hzero
  let g : Form := ⟨(terms.filter fun s => s.1 == t.1).map Prod.snd⟩
  have hsublist : g.terms.Sublist f.terms := hterms ▸ List.filter_sublist.map _
  have hmem : t.2 ∈ g.terms := List.mem_map_of_mem (List.mem_filter.2 ⟨ht, beq_self_eq_true t.1⟩)
  have hvector : g.vector = 0 := by
    have hproduct := vector_mul_coefficientOfDegree hdegrees hsettled hterms t.1
    rw [hzero, vector_mul, vector_zero, map_zero, LinearMap.zero_apply] at hproduct
    rw [vector, termsVector, List.map_map]
    exact hproduct.symm
  have happly := Sorted.vector_apply (hf.sorted.sublist hsublist) hmem
  rw [hvector] at happly
  exact (hf.noZeros _ (hsublist.subset hmem)).1 happly.symm

/-- A term that is not linear has a coefficient that is not dropped. -/
theorem two_lt_length_of_linear? (hf : f.Ordered) (h : f.linear? [unknown] = none) :
    2 < (dropZeros ((List.range (maxDegree + 1)).map
      (coefficientOfDegree unknown terms))).length := by
  obtain ⟨s, hs, hplace⟩ := linear?_eq_none_iff_place.1 h
  have harranged := (hsettled s hs).arranged
  have hnonlinear := (linearPlace?_eq_none_iff (List.nodup_singleton unknown)
    harranged.sorted.pairwise_ne).1 hplace
  obtain ⟨t, ht, rfl⟩ := List.mem_map.1 (hterms ▸ hs)
  have htwo := two_le_of_isNonlinear harranged (hdegrees t ht) hnonlinear
  have hle := (degreeIn?_eq_some_iff.1 (hdegrees t ht)).2.1
  refine htwo.trans_lt (lt_length_dropZeros (d := t.1)
    (c := coefficientOfDegree unknown terms t.1) ?_
    (coefficientOfDegree_ne_zero hdegrees hsettled hterms hf ht))
  rw [List.getElem?_map, List.getElem?_range (by omega), Option.map_some]

end Spec

/-- **Polynomials are exact and complete**: a normal form is the sum of the coefficients that are
read off it times the powers of the unknown, no coefficient mentions the unknown, however deep, and
the leading one is not zero unless it is the only one.  No coefficients are read off exactly where
some term has the unknown with an exponent that is negative or beyond the bound, or the unknown
nested in an atom.  What is not linear in the unknown has at least degree two. -/
theorem polynomial?_spec (hf : f.IsNormal) (hmade : f.Constructible) :
    (∀ ks, f.polynomial? unknown maxDegree = some ks →
      ks ≠ [] ∧ ks.length ≤ maxDegree + 1 ∧
      f = sumAll (ks.mapIdx fun d c => mul c ((symbol unknown).repeated d)) ∧
      (∀ c ∈ ks, c.mentions unknown = false) ∧
      (2 ≤ ks.length → ∃ c, ks.getLast? = some c ∧ c ≠ zero) ∧
      (f.linear? [unknown] = none → 3 ≤ ks.length)) ∧
    (f.polynomial? unknown maxDegree = none ↔
      ∃ t ∈ f.terms, t.1.IsNonpolynomial unknown maxDegree) := by
  have hsettled := hf.settled hmade
  have hsorted := fun t ht => (hsettled t ht).arranged.sorted
  refine ⟨fun ks hks => ?_, ?_⟩
  · obtain ⟨terms, hlabels, rfl⟩ := Option.map_eq_some_iff.1 hks
    obtain ⟨hterms, hdegrees⟩ := List.mapM_label hlabels
    let fs := (List.range (maxDegree + 1)).map (coefficientOfDegree unknown terms)
    have hfs : fs.length = maxDegree + 1 := by simp [fs]
    change dropZeros fs ≠ [] ∧ (dropZeros fs).length ≤ _ ∧ f = sumAll ((dropZeros fs).mapIdx _) ∧
      (∀ c ∈ dropZeros fs, _) ∧ _ ∧ (_ → 3 ≤ (dropZeros fs).length)
    refine ⟨dropZeros_ne_nil (List.ne_nil_of_length_pos (by omega)),
      (length_dropZeros_le fs).trans_eq hfs, hmade.ordered.eq_of_vector (.sumAll fun g hg => ?_) ?_,
      fun c hc => ?_, getLast_dropZeros_ne_zero, fun hlinear => ?_⟩
    · obtain ⟨d, hd, rfl⟩ := List.mem_mapIdx.1 hg
      exact .mul _ _
    · rw [vector_eq_sum_coefficients hdegrees hsettled hterms, vector_sum_dropZeros, vector_sumAll]
      congr 1
      exact List.ext_getElem (by simp [fs]) fun d _ _ => by simp [fs]
    · obtain ⟨d, -, rfl⟩ := List.mem_map.1 (mem_of_mem_dropZeros hc)
      exact mentions_coefficientOfDegree hdegrees d
    · exact two_lt_length_of_linear? hdegrees hsettled hterms hmade.ordered hlinear
  · rw [polynomial?_eq_none_iff_degree]
    exact exists_congr fun t => and_congr_right fun ht => degreeIn?_eq_none_iff (hsorted t ht)

/-- The coefficients of `b a² + a - 2` in `a`. -/
theorem polynomial?_quadratic :
    let f := add (mul (symbol 1) (mul (symbol 0) (symbol 0))) (add (symbol 0) (ofRat (-2)))
    f.IsNormal ∧ f.polynomial? 0 2 = some [ofRat (-2), one, symbol 1] ∧
      f = sumAll ([ofRat (-2), one, symbol 1].mapIdx fun d c => mul c ((symbol 0).repeated d)) ∧
      f.polynomial? 0 1 = none := by
  intro f
  have hsymbol : ∀ id, (symbol id).Reachable ∧ (symbol id).Constructible :=
    fun id => ⟨.atom (.symbol id), .ofAtom (.symbol id)⟩
  have hf : f.IsNormal := isNormal_of_reachable
    (.add (.mul (hsymbol 1).1 (.mul (hsymbol 0).1 (hsymbol 0).1)) (.add (hsymbol 0).1 (.rational _)))
  have hmade : f.Constructible :=
    .add (.mul (hsymbol 1).2 (.mul (hsymbol 0).2 (hsymbol 0).2)) (.add (hsymbol 0).2 (.ofRat _))
  have hpolynomial : f.polynomial? 0 2 = some [ofRat (-2), one, symbol 1] := by decide +kernel
  refine ⟨hf, hpolynomial, ((polynomial?_spec hf hmade).1 _ hpolynomial).2.2.1,
    (polynomial?_spec hf hmade).2.2 ?_⟩
  exact ⟨(⟨[(.symbol 0, 2), (.symbol 1, 1)]⟩, 1), by decide +kernel,
    .inl ⟨2, List.mem_cons_self, .inr (by decide)⟩⟩

end Form

end Resolvent

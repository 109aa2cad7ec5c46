import Resolvent.Form.OfExpression
import Resolvent.Form.Plain
import Resolvent.Proofs.Expression.Along
import Resolvent.Proofs.Form.NormalForm
import Resolvent.Proofs.Form.Monomials
import Resolvent.Proofs.Form.Terms

/-!
# Forms are read back from their expressions

The expression of a form is a sum of fractions.  Each fraction is read back as its term, with the
factors above the bar, those below it and the sign (`Expression.form_fractionOf`), and a sum of
fractions as the sum of its terms, whether it is written over a common denominator or not
(`Expression.form_sumOfTerms`).

So a form is read back from its expression where its atoms are (`Form.form_expression`).  That asks
two things of them: that their own functions, powers and roots have no simpler value
(`Atom.Recognised`), and that their exponents are within the limits that powers obey
(`Monomial.FactorReadable`).
-/

namespace Resolvent

/-! ### The parts of a fraction -/

namespace Monomial

variable {a : Atom} {k : Int} {xs : List (Atom × Int)}

/-- The factor is within the limits that powers obey: its exponent is one of those that are
multiplied out, a power of Euler's number has no exponent at which it is evaluated, and a reciprocal
is what the inverse of its sum is. -/
def FactorReadable : Atom × Int → Prop
  | (.e, k) => Width.isInt32 k = true ∧ k ≠ -2147483648
  | (.power f g, k) => k.natAbs ≤ Form.maxExpandedPower ∧
      (f = Form.e → Form.exponential g = Form.ofAtom (.power f g))
  | (.reciprocal f, k) => (0 < k ∧ k ≤ Form.maxExpandedPower) ∧
      f.inverse? = some (Form.ofAtom (.reciprocal f))
  | (_, k) => k.natAbs ≤ Form.maxExpandedPower

/-- The factors that stand above the bar of a fraction. -/
def numerator (m : Monomial) : List (Atom × Int) := m.factors.filter fun x => decide (0 < x.2)

/-- The factors that stand below the bar of a fraction, with the opposites of their exponents. -/
def denominator (m : Monomial) : List (Atom × Int) :=
  (m.factors.filter fun x => !decide (0 < x.2)).map fun x => (x.1, -x.2)

end Monomial

namespace Expression

open Form (ofTerm ofAtom maxExpandedPower)

variable {p : Preferences} {a : Atom} {k : Int}

theorem form_ofRat (p : Preferences) (q : Rat) : (ofRat q).form p = .ok (Form.ofRat q) := by
  unfold ofRat
  split
  · next n hn =>
    obtain ⟨hn, -⟩ := Option.filter_eq_some_iff.1 hn
    obtain ⟨hden, rfl⟩ := Rational.toInteger?_eq_some_iff.1 hn
    rw [form, Rat.coe_int_num_of_den_eq_one hden]
  · rw [form]

theorem forms_map {α : Type} {xs : List α} {e : α → Expression} {f : α → Form}
    (h : ∀ x ∈ xs, (e x).form p = .ok (f x)) : forms p (xs.map e) = .ok (xs.map f) := by
  induction xs with
  | nil => rw [List.map_nil, forms]; rfl
  | cons x xs ih =>
    obtain ⟨hx, hxs⟩ := List.forall_mem_cons.1 h
    rw [List.map_cons, forms, hx, ih hxs]
    rfl

theorem toInteger?_intCast (k : Int) : Rational.toInteger? (k : Rat) = some k := by
  simp [Rational.toInteger?]

theorem exponential_ofRat (hk : k ≠ 0) (hk' : Width.isInt32 k = true) :
    Form.exponential (Form.ofRat k) = Form.ofFactors 1 [(.e, k)] := by
  simp [Form.exponential, Form.isZero_ofRat, Form.toRat?_ofRat, toInteger?_intCast, hk, hk']

/-- Only Euler's number is written as the constant. -/
theorem isE_eq_false {e : Expression} {f : Form} (he : e.form p = .ok f) (hf : f ≠ Form.e) :
    e.isE = false := by
  unfold isE
  split
  · rw [form] at he
    exact absurd (Except.ok.inj he).symm hf
  · rfl

theorem rationalPower_ofAtom (hk : 0 < k) (hk' : k ≤ maxExpandedPower)
    (h : Monomial.Reduced ⟨[(a, k)]⟩) :
    Form.power p (ofAtom a) (Form.ofRat k) = .ok (ofTerm ⟨[(a, k)]⟩ 1) := by
  have hword : Width.isInt64 k = true := by
    unfold maxExpandedPower at hk'
    exact Width.isInt64_iff.2 ⟨by omega, by omega⟩
  have hint64 : Rational.toInt64? (k : Rat) = some k := by
    simp [Rational.toInt64?, toInteger?_intCast, hword]
  obtain ⟨n, rfl⟩ := Int.eq_ofNat_of_zero_le hk.le
  have hpow := Form.pow?_ofTerm (by omega) h
  rw [Form.ofAtom_of_reduced h.unit, Form.power, Form.toRat?_ofRat]
  dsimp only
  rw [if_neg (by simp [ofTerm, Form.isZero]), Form.rationalPower_of_pow? hint64 hpow]

/-- A power of an atom with a positive exponent is read back. -/
theorem form_powerOf (ha : a.expression.form p = .ok (ofAtom a)) (hk : 0 < k)
    (hreadable : a = .e ∨ k ≤ maxExpandedPower) (h : Monomial.Reduced ⟨[(a, k)]⟩) :
    (powerOf a.expression k).form p = .ok (ofTerm ⟨[(a, k)]⟩ 1) := by
  unfold powerOf
  split
  · next hone => rw [ha, Form.ofAtom_of_reduced h.unit, hone]
  · rw [form, form]
    by_cases hae : a = .e
    · subst hae
      have hword : Width.isInt32 k = true := h.factors _ (List.mem_singleton_self _)
      rw [Atom.expression]
      change Except.ok (Form.exponential (Form.ofRat k)) = _
      rw [exponential_ofRat hk.ne' hword, Form.ofFactors_of_reduced h]
    · have hbase : a.expression.isE = false := isE_eq_false ha fun heq =>
        hae (Form.eq_of_ofAtom_eq h.unit Monomial.reduced_e heq)
      rw [hbase, ha]
      exact rationalPower_ofAtom hk (hreadable.resolve_left hae) h

theorem form_productOf_of_two {es : List Expression} {fs : List Form} (hes : 2 ≤ es.length)
    (h : forms p es = .ok fs) : (productOf es).form p = .ok (fs.foldl Form.mul Form.one) := by
  match es with
  | [] | [_] => simp at hes
  | e :: e' :: es =>
    change (product (e :: e' :: es)).form p = _
    rw [form, h]
    rfl

theorem form_sumOf_of_two {es : List Expression} {fs : List Form} (hes : 2 ≤ es.length)
    (h : forms p es = .ok fs) : (sumOf es).form p = .ok (fs.foldl Form.add Form.zero) := by
  match es with
  | [] | [_] => simp at hes
  | e :: e' :: es =>
    change (sum (e :: e' :: es)).form p = _
    rw [form, h]
    rfl

theorem form_quotient {b e : Expression} {n d q : Form} (hb : b.form p = .ok n)
    (he : e.form p = .ok d) (hq : n.divide? d = some q) : (quotient b e).form p = .ok q := by
  rw [form, hb, he]
  dsimp only [bind, Except.bind]
  rw [hq]
  rfl

/-- A product of a natural number and reduced powers is read back. -/
theorem form_productOf {xs : List (Atom × Int)} (hxs : Monomial.Reduced ⟨xs⟩)
    (h : ∀ x ∈ xs, (powerOf x.1.expression x.2).form p = .ok (ofTerm ⟨[x]⟩ 1)) (n : Nat) :
    (productOf ((if n = 1 then [] else [ofRat n]) ++
      xs.map fun x => powerOf x.1.expression x.2)).form p = .ok (ofTerm ⟨xs⟩ n) := by
  have hforms := forms_map h
  have hmul := @Form.foldl_mul_factors xs [] hxs
  split
  · next hn =>
    subst hn
    match xs, h, hforms, hmul with
    | [], _, _, _ => rfl
    | [x], h, _, _ => exact (h x List.mem_cons_self).trans (by rw [Nat.cast_one])
    | x :: y :: xs, _, hforms, hmul =>
      rw [List.nil_append, form_productOf_of_two (by simp) hforms]
      exact congrArg Except.ok (hmul 1)
  · match xs, hforms, hmul with
    | [], _, _ => exact form_ofRat p n
    | x :: xs, hforms, hmul =>
      have hall : forms p (ofRat n :: (x :: xs).map fun x => powerOf x.1.expression x.2) =
          .ok (Form.ofRat n :: (x :: xs).map fun x => ofTerm ⟨[x]⟩ 1) := by
        rw [forms, form_ofRat, hforms]
        rfl
      have hone : Form.mul Form.one (Form.ofRat n) = ofTerm ⟨[]⟩ n := by
        rw [Form.mul, Form.one, Form.mulWith_ofRat, one_mul]
        rfl
      rw [List.cons_append, List.nil_append, form_productOf_of_two (by simp) hall, List.foldl_cons,
        hone]
      exact congrArg Except.ok (hmul n)

/-! ### Fractions -/

variable {m : Monomial} 

theorem reduced_numerator (hm : m.Reduced) : Monomial.Reduced ⟨m.numerator⟩ :=
  hm.of_sublist List.filter_sublist

theorem isInt32_iff {n : Int} :
    Width.isInt32 n = true ↔ -2147483648 ≤ n ∧ n ≤ 2147483647 := by
  simp [Width.isInt32]

theorem isReadableExponent (h : Monomial.FactorReadable (a, k)) :
    a = .e ∧ -2147483648 < k ∧ k ≤ 2147483647 ∨ k.natAbs ≤ maxExpandedPower := by
  cases a with
  | e =>
    obtain ⟨hword, hne⟩ := h
    have := isInt32_iff.1 hword
    exact .inl ⟨rfl, by omega⟩
  | power f g => exact .inr (show _ ∧ _ from h).1
  | reciprocal f =>
    have h : (0 < k ∧ k ≤ maxExpandedPower) ∧ _ := h
    exact .inr (by omega)
  | _ => exact .inr h

/-- A readable exponent fits a word, and so does its opposite. -/
theorem word_of_readable (h : Monomial.FactorReadable (a, k)) :
    -2147483648 < k ∧ k ≤ 2147483647 := by
  rcases isReadableExponent h with ⟨-, h⟩ | h
  · exact h
  · unfold maxExpandedPower at h
    omega

theorem le_of_readable (h : Monomial.FactorReadable (a, k)) :
    a = .e ∨ k.natAbs ≤ maxExpandedPower := (isReadableExponent h).imp_left And.left

/-- No root, radical or reciprocal stands below the bar, and the exponents of other atoms may
change their sign. -/
theorem reduced_neg (hfits : Monomial.ExponentFits (a, k)) (h : Monomial.FactorReadable (a, k))
    (hk : ¬ 0 < k) :
    Monomial.ExponentFits (a, -k) ∧ Monomial.FactorReduced (a, -k) ∧ ∀ q n, a ≠ .root q n := by
  have hword : Width.isInt32 (-k) = true := by
    have := word_of_readable h
    exact isInt32_iff.2 (by omega)
  have hne : k ≠ 0 := Monomial.ne_zero_of_exponentFits hfits
  cases a with
  | imaginaryUnit | root q n =>
    obtain rfl : k = 1 := hfits
    exact absurd one_pos hk
  | radical f n =>
    have hfits : 0 < k ∧ k < n := hfits
    exact absurd hfits.1 hk
  | reciprocal f =>
    have h : (0 < k ∧ k ≤ maxExpandedPower) ∧ _ := h
    exact absurd h.1.1 hk
  | _ => exact ⟨neg_ne_zero.2 hne, hword, nofun⟩

theorem reduced_denominator (hm : m.Reduced) (h : ∀ x ∈ m.factors, Monomial.FactorReadable x) :
    Monomial.Reduced ⟨m.denominator⟩ := by
  have hneg : ∀ x ∈ m.denominator, Monomial.ExponentFits x ∧ Monomial.FactorReduced x ∧
      ∀ q n, x.1 ≠ .root q n := by
    intro x hx
    obtain ⟨y, hy, rfl⟩ := List.mem_map.1 hx
    obtain ⟨hy, hk⟩ := List.mem_filter.1 hy
    exact reduced_neg (hm.arranged.exponents y hy) (h y hy) (by simpa using hk)
  exact ⟨⟨List.pairwise_map.2 (hm.arranged.sorted.filter _), fun x hx => (hneg x hx).1,
    fun hq _ => absurd rfl ((hneg _ hq).2.2 _ _)⟩, fun x hx => (hneg x hx).2.1⟩

/-- Multiplied by minus one, the exponents below the bar are those of the product. -/
theorem scaleExponents_denominator (m : Monomial) :
    Monomial.scaleExponents ⟨m.denominator⟩ (-1) =
      m.factors.filter fun x => !decide (0 < x.2) := by
  simp [Monomial.scaleExponents, Monomial.denominator, Function.comp_def]

/-- The quotient of what is above the bar by what is below it. -/
theorem divide?_numerator_denominator (hm : m.Reduced)
    (h : ∀ x ∈ m.factors, Monomial.FactorReadable x) (c : Rat) {d : Rat} (hd : d ≠ 0) :
    (ofTerm ⟨m.numerator⟩ c).divide? (ofTerm ⟨m.denominator⟩ d) = some (ofTerm m (c * d⁻¹)) := by
  have hrest : Monomial.Reduced ⟨m.factors.filter fun x => !decide (0 < x.2)⟩ :=
    hm.of_sublist List.filter_sublist
  have hinverse := Form.inverse?_ofTerm (m := ⟨m.denominator⟩) hd
    (by rw [scaleExponents_denominator]; exact hrest)
  rw [scaleExponents_denominator] at hinverse
  obtain ⟨xs⟩ := m
  rw [Form.divide?, hinverse, Option.map_some, Form.mul_ofTerm (reduced_numerator hm).arranged.sorted
    hrest.arranged.sorted hm.settled (List.filter_append_perm _ _)]

theorem magnitude_eq (q : Rat) :
    ((Rational.magnitude q).num.natAbs : Rat) * ((Rational.magnitude q).den : Rat)⁻¹ =
      Rational.magnitude q := by
  have hnonneg : 0 ≤ Rational.magnitude q := by
    unfold Rational.magnitude
    split <;> linarith
  rw [Nat.cast_natAbs, abs_of_nonneg (Rat.num_nonneg.2 hnonneg), ← div_eq_mul_inv, Rat.num_div_den]

section Fraction

variable (hm : m.Reduced) (h : ∀ x ∈ m.factors, Monomial.FactorReadable x)
  (hatoms : ∀ x ∈ m.factors, x.1.expression.form p = .ok (ofAtom x.1))

include hm h hatoms

theorem form_numerator (n : Nat) :
    (productOf ((if n = 1 then [] else [ofRat n]) ++
      ((m.factors.map fun x => (x.1.expression, x.2)).filter fun x => decide (0 < x.2)).map
        fun x => powerOf x.1 x.2)).form p = .ok (ofTerm ⟨m.numerator⟩ n) := by
  rw [List.filter_map, List.map_map]
  refine form_productOf (reduced_numerator hm) (fun x hx => ?_) n
  obtain ⟨hmem, hpos⟩ := List.mem_filter.1 hx
  have hpos : 0 < x.2 := of_decide_eq_true hpos
  refine form_powerOf (hatoms x hmem) hpos ((le_of_readable (h x hmem)).imp_right fun hle => ?_)
    (hm.of_sublist (List.singleton_sublist.2 hmem))
  omega

theorem form_denominator (n : Nat) :
    (productOf ((if n = 1 then [] else [ofRat n]) ++
      ((m.factors.map fun x => (x.1.expression, x.2)).filter fun x => !decide (0 < x.2)).map
        fun x => powerOf x.1 (Width.negate32 x.2))).form p = .ok (ofTerm ⟨m.denominator⟩ n) := by
  have hpowers : ((m.factors.map fun x => (x.1.expression, x.2)).filter
      fun x => !decide (0 < x.2)).map (fun x => powerOf x.1 (Width.negate32 x.2)) =
      m.denominator.map fun x => powerOf x.1.expression x.2 := by
    rw [List.filter_map, List.map_map, Monomial.denominator, List.map_map]
    refine List.map_congr_left fun x hx => ?_
    have hword := word_of_readable (h x (List.mem_filter.1 hx).1)
    exact congrArg (powerOf x.1.expression) (Width.negate32_of_mem hword.1 hword.2)
  rw [hpowers]
  have hreduced := reduced_denominator hm h
  refine form_productOf hreduced (fun x hx => ?_) n
  have hsingle := hreduced.of_sublist (List.singleton_sublist.2 hx)
  obtain ⟨y, hy, rfl⟩ := List.mem_map.1 hx
  obtain ⟨hmem, hneg⟩ := List.mem_filter.1 hy
  have hne := Monomial.ne_zero_of_exponentFits (hm.arranged.exponents y hmem)
  have hneg : ¬ 0 < y.2 := by simpa using hneg
  refine form_powerOf (hatoms y hmem) (by omega)
    ((le_of_readable (h y hmem)).imp_right fun hle => ?_) hsingle
  omega

/-- A term is read back from the fraction that is written for it. -/
theorem form_fractionOf (q : Rat) :
    (fractionOf q (m.factors.map fun x => (x.1.expression, x.2))).form p = .ok (ofTerm m q) := by
  have htop := form_numerator hm h hatoms (Rational.magnitude q).num.natAbs
  have hbottom := form_denominator hm h hatoms (Rational.magnitude q).den
  have hmagnitude := magnitude_eq q
  have hdivide := divide?_numerator_denominator hm h (Rational.magnitude q).num.natAbs
    (Nat.cast_ne_zero.2 (Rational.magnitude q).den_ne_zero)
  have hsign : ∀ {e : Expression}, e.form p = .ok (ofTerm m (Rational.magnitude q)) →
      (if q < 0 then opposite e else e).form p = .ok (ofTerm m q) := by
    intro e he
    rw [Rational.magnitude] at he
    split
    · next hneg =>
      rw [if_pos hneg] at he
      rw [form, he]
      exact congrArg Except.ok (by rw [Form.neg_ofTerm, neg_neg])
    · next hpos => rwa [if_neg hpos] at he
  unfold fractionOf
  split
  · next hnil => 
    have hnil : m.factors = [] := by simpa using hnil
    obtain ⟨xs⟩ := m
    obtain rfl : xs = [] := hnil
    exact form_ofRat p q
  · refine hsign ?_
    rw [hmagnitude] at hdivide
    split
    · next hempty =>
      obtain ⟨hnumber, hpowers⟩ := List.append_eq_nil_iff.1 (List.isEmpty_iff.1 hempty)
      have hden : (Rational.magnitude q).den = 1 := by
        by_contra hne
        dsimp only at hnumber
        rw [if_neg hne] at hnumber
        cases hnumber
      have hnumerator : m.numerator = m.factors := by
        refine List.filter_eq_self.2 fun x hx => ?_
        simp only [List.map_eq_nil_iff, List.filter_eq_nil_iff, List.mem_map] at hpowers
        simpa using hpowers _ ⟨x, hx, rfl⟩
      rw [htop, hnumerator]
      rw [hden, Nat.cast_one, inv_one, mul_one] at hmagnitude
      rw [hmagnitude]
      cases m
      rfl
    · exact form_quotient htop hbottom hdivide

end Fraction

/-! ### Sums of fractions -/

/-- The terms of a form as they are written, with the expressions of their atoms. -/
def written (terms : List (Monomial × Rat)) : List (Rat × List Factor) :=
  terms.map fun t => (t.2, t.1.factors.map fun x => (x.1.expression, x.2))

theorem factorExpressions_eq (factors : List (Atom × Int)) :
    Monomial.factorExpressions factors = factors.map fun x => (x.1.expression, x.2) := by
  induction factors with
  | nil => rw [Monomial.factorExpressions]; rfl
  | cons x factors ih => rw [Monomial.factorExpressions, ih]; rfl

theorem termExpressions_eq (terms : List (Monomial × Rat)) :
    Form.termExpressions terms = written terms := by
  induction terms with
  | nil => rw [Form.termExpressions]; rfl
  | cons t terms ih =>
    obtain ⟨⟨factors⟩, q⟩ := t
    rw [Form.termExpressions, ih, Monomial.expressions, factorExpressions_eq]
    rfl

/-- The terms as they are added, the constant last. -/
def addends : List (Monomial × Rat) → List (Monomial × Rat)
  | (⟨[]⟩, q) :: rest => rest ++ [(⟨[]⟩, q)]
  | terms => terms

theorem constantLast_written (terms : List (Monomial × Rat)) :
    constantLast (written terms) = written (addends terms) := by
  match terms with
  | [] => rfl
  | (⟨[]⟩, q) :: rest => simp [written, constantLast, addends]
  | (⟨_ :: _⟩, q) :: rest => rfl

theorem foldl_add_addends {f : Form} (h : f.Sorted) :
    ((addends f.terms).map fun t => (⟨[t]⟩ : Form)).foldl Form.add Form.zero = f := by
  match f, h with
  | ⟨[]⟩, _ => rfl
  | ⟨(⟨[]⟩, q) :: rest⟩, h =>
    -- the constant comes before all other terms
    obtain ⟨hfirst, hrest⟩ := List.pairwise_cons.1 h
    change ((rest ++ [((⟨[]⟩ : Monomial), q)]).map fun t => (⟨[t]⟩ : Form)).foldl Form.add
      Form.zero = _
    have hrest := @Form.foldl_add_terms ⟨rest⟩ hrest
    dsimp only at hrest
    rw [List.map_append, List.foldl_append, hrest]
    refine @Form.add_singleton_of_precedes ⟨rest⟩ _ _ fun s hs t ht => ?_
    rw [List.mem_singleton.1 hs]
    exact hfirst t ht
  | ⟨(⟨_ :: _⟩, q) :: rest⟩, h => exact Form.foldl_add_terms h

theorem addends_map (terms : List (Monomial × Rat)) (g : Rat → Rat) :
    addends (terms.map fun t => (t.1, g t.2)) = (addends terms).map fun t => (t.1, g t.2) := by
  match terms with
  | [] => rfl
  | (⟨[]⟩, q) :: rest => simp [addends]
  | (⟨_ :: _⟩, q) :: rest => rfl

theorem mem_addends {terms : List (Monomial × Rat)} {t : Monomial × Rat} :
    t ∈ addends terms ↔ t ∈ terms := by
  match terms with
  | [] => rfl
  | (⟨[]⟩, q) :: rest =>
    change t ∈ rest ++ [(⟨[]⟩, q)] ↔ _
    rw [List.mem_append, List.mem_singleton, List.mem_cons, or_comm]
  | (⟨_ :: _⟩, q) :: rest => rfl

theorem length_addends (terms : List (Monomial × Rat)) :
    (addends terms).length = terms.length := by
  match terms with
  | [] => rfl
  | (⟨[]⟩, q) :: rest => exact List.length_append
  | (⟨_ :: _⟩, q) :: rest => rfl

/-- A term is read back from its fraction, whatever its coefficient is. -/
def FractionsRead (p : Preferences) (f : Form) : Prop :=
  ∀ t ∈ f.terms, ∀ q : Rat,
    (fractionOf q (t.1.factors.map fun x => (x.1.expression, x.2))).form p = .ok (ofTerm t.1 q)

variable {f : Form}

theorem form_sumOf (hsorted : f.Sorted) (hne : ∀ t ∈ f.terms, t.2 ≠ 0) (h : FractionsRead p f) :
    (sumOf ((written (addends f.terms)).map fun t => fractionOf t.1 t.2)).form p = .ok f := by
  have hforms : forms p ((written (addends f.terms)).map fun t => fractionOf t.1 t.2) =
      .ok ((addends f.terms).map fun t => (⟨[t]⟩ : Form)) := by
    rw [written, List.map_map]
    refine forms_map fun t ht => ?_
    have ht := mem_addends.1 ht
    exact (h t ht t.2).trans (congrArg Except.ok (Form.ofTerm_eq (hne t ht) t.1))
  have hsum := foldl_add_addends hsorted
  by_cases hlength : 2 ≤ f.terms.length
  · rw [form_sumOf_of_two (by simpa [written, length_addends] using hlength) hforms, hsum]
  · match f, hne, h, hlength with
    | ⟨[]⟩, _, _, _ => exact form_ofRat p 0
    | ⟨[t]⟩, hne, h, _ =>
      obtain ⟨⟨factors⟩, q⟩ := t
      have hq := h _ List.mem_cons_self q
      rw [Form.ofTerm_eq (hne _ List.mem_cons_self)] at hq
      cases factors <;> exact hq
    | ⟨_ :: _ :: _⟩, _, _, hlength => simp at hlength

theorem clearingScale?_ne_zero {terms : List (Rat × List Factor)} {d : Rat}
    (h : clearingScale? terms = some d) : d ≠ 0 := by
  unfold clearingScale? at h
  split at h
  · next n _ =>
    split at h
    · next hn =>
      have hn : (n : Rat) ≠ 0 := Nat.cast_ne_zero.2 (by omega)
      cases h
      split
      · exact hn
      · exact one_ne_zero
    · cases h
  · cases h

/-- Terms over their common denominator are read back. -/
theorem form_quotient_scale (hsorted : f.Sorted) (hne : ∀ t ∈ f.terms, t.2 ≠ 0)
    (h : FractionsRead p f) {d : Rat} (hd : d ≠ 0) :
    (quotient (sumOf ((written (addends f.terms)).map fun t => fractionOf (t.1 * d) t.2))
      (ofRat d)).form p = .ok f := by
  have hscale : f.scale d = ⟨f.terms.map fun t => (t.1, t.2 * d)⟩ := by rw [Form.scale, if_neg hd]
  have hterms : ∀ t ∈ (f.scale d).terms, ∃ s ∈ f.terms, (s.1, s.2 * d) = t := by
    rw [hscale]
    exact fun t ht => List.mem_map.1 ht
  have hne' : ∀ t ∈ (f.scale d).terms, t.2 ≠ 0 := by
    intro t ht
    obtain ⟨s, hs, rfl⟩ := hterms t ht
    exact mul_ne_zero (hne s hs) hd
  have htop := form_sumOf (hsorted.scale d) hne' fun t ht q => by
    obtain ⟨s, hs, rfl⟩ := hterms t ht
    exact h s hs q
  refine form_quotient (n := f.scale d) ?_ (form_ofRat p d) ?_
  · rw [← htop, hscale, addends_map f.terms (· * d)]
    simp [written, Function.comp_def]
  · rw [Form.divide?, Form.inverse?_ofRat, Rational.inverse?, if_neg hd, Option.map_some, Option.map_some, Form.mul,
      Form.mulWith_ofRat_right _ (hsorted.scale d) hne', hscale, Form.scale,
      if_neg (inv_ne_zero hd), List.map_map]
    refine congrArg some ?_
    obtain ⟨terms⟩ := f
    refine congrArg Form.mk ?_
    conv_rhs => rw [← List.map_id terms]
    exact List.map_congr_left fun t _ => Prod.ext rfl (mul_inv_cancel_right₀ hd t.2)

/-- A sum of terms is read back from the fractions of its terms. -/
theorem form_sumOfTerms (hsorted : f.Sorted) (hne : ∀ t ∈ f.terms, t.2 ≠ 0)
    (h : FractionsRead p f) : (sumOfTerms (written f.terms)).form p = .ok f := by
  have hsum : ∀ {t : Rat × List Factor} {ts}, written f.terms = t :: ts → (t.2 = [] → ts ≠ []) →
      (sumOfTerms (written f.terms)).form p = .ok f := by
    intro t ts hts hmany
    rw [hts, sumOfTerms, ← hts, constantLast_written]
    · cases hd : clearingScale? (written (addends f.terms)) with
      | some d => exact form_quotient_scale hsorted hne h (clearingScale?_ne_zero hd)
      | none => exact form_sumOf hsorted hne h
    · exact List.cons_ne_nil t ts
    · intro q hq
      cases hq
      exact hmany rfl rfl
  obtain ⟨terms⟩ := f
  rcases terms with _ | ⟨⟨⟨_ | _⟩, q⟩, _ | _⟩
  · exact form_ofRat p 0
  · exact (form_ofRat p q).trans (congrArg Except.ok (if_neg (hne _ List.mem_cons_self)))
  all_goals exact hsum rfl (by simp)

/-! ### Atoms -/

/-- A root is read back from its radicand and its index. -/
theorem form_rootOf {e : Expression} {g : Form} {n : Nat} (he : e.form p = .ok f)
    (hg : Form.root p f n = .ok g) (hlow : 1 ≤ n) (hhigh : n ≤ Form.maxRootIndex) :
    (e.rootOf n).form p = .ok g := by
  have hroot : Form.rootOrUnreal p f n = .ok g := by
    rw [Form.rootOrUnreal, hg]
    rfl
  unfold rootOf
  split
  · next hn =>
    subst hn
    rw [form, forms, he, forms]
    change ((Form.rootOrUnreal p f 2).map some).map _ = _
    rw [hroot]
    rfl
  · have hindex : (Form.ofRat (n : Int)).rootIndex? = some n := by
      rw [Form.rootIndex?, Form.toRat?_ofRat, Option.bind_some, toInteger?_intCast]
      exact if_pos ⟨hlow, hhigh⟩
    rw [form, forms, he, forms, form, forms]
    change ((Form.rootBy p f (Form.ofRat (n : Int))).map some).map _ = _
    rw [Form.rootBy, hindex]
    dsimp only
    rw [hroot]
    rfl

end Expression

/-! ### Forms -/

open Form (ofAtom)
open Expression

variable {p : Preferences}

/-- The expression that stands for the atom has it as its form: a root is that of a whole number,
and a radical, a function or a power has no simpler value. -/
def Atom.Recognised (p : Preferences) : Atom → Prop
  | .root q n => q.den = 1 ∧ 0 < n
  | .radical f n => Form.root p f n = .ok (Form.radical f n)
  | .apply g args => Form.ofFunction p g.code args = .ok (ofAtom (.apply g args))
  | .power f g => f ≠ Form.e → Form.power p f g = .ok (ofAtom (.power f g))
  | _ => True

/-- The factors of normal forms that are within the limits are those of reduced monomials. -/
theorem Monomial.reduced_of_readable {m : Monomial} (harranged : m.Arranged)
    (hatoms : ∀ x ∈ m.factors, x.1.IsNormal) (h : ∀ x ∈ m.factors, FactorReadable x) :
    m.Reduced := by
  refine ⟨harranged, fun x hx => ?_⟩
  have hatom := hatoms x hx
  have hreadable := h x hx
  obtain ⟨a, k⟩ := x
  have hword : Width.isInt32 k = true := by
    have := word_of_readable hreadable
    exact isInt32_iff.2 (by omega)
  cases hatom with
  | root hq hone hlow hhigh hextract => exact ⟨hone, hextract, hlow⟩
  | reciprocal => exact ⟨hreadable.1.1, hword⟩
  | _ => exact hword

/-- A root of a whole number from which nothing can be extracted is an atom. -/
theorem Form.root_ofRat_of_normal {q : Rat} {n : Nat} (h : (Atom.root q n).IsNormal)
    (hden : q.den = 1) : Form.root p (Form.ofRat q) n = .ok (ofAtom (.root q n)) := by
  cases h with
  | root hq hone hlow hhigh hextract =>
    have hmagnitude : Rational.magnitude q = q := if_neg (not_lt.2 hq.le)
    have hindex : Width.isInt32 n = true := isInt32_iff.2 (by omega)
    have hden' : (q.den : Rat) = 1 := by rw [hden, Nat.cast_one]
    have hpow : q * Rat.pow q.den n = q := by
      rw [hden', show Rat.pow 1 n = 1 from one_pow (M := Rat) n, mul_one]
    have hroot : Form.positiveRoot q n = ofAtom (.root q n) := by
      unfold Form.positiveRoot
      rw [hindex, hden, if_pos (by decide)]
      rw [hden] at hpow
      rw [hpow, hextract]
      dsimp only
      rw [if_neg hone, Nat.cast_one, div_one]
      rfl
    have hzero : (Form.ofRat q).isZero = false := by simp [Form.isZero_ofRat, hq.ne']
    rw [Form.root, hzero, if_neg (by simp; omega), Form.toRat?_ofRat]
    dsimp only
    rw [Form.rationalRoot, hmagnitude, if_pos hq.le, hroot]

mutual

/-- An atom that is recognised and within the limits is the form of its expression. -/
theorem Atom.form_expression : ∀ {a : Atom} {k : Int}, a.IsNormal →
    a.Everywhere (Atom.Recognised p) →
    Monomial.FactorReadable (a, k) → a.Throughout Monomial.FactorReadable →
    a.expression.form p = .ok (ofAtom a)
  | .symbol _, _, _, _, _, _ | .pi, _, _, _, _, _ | .e, _, _, _, _, _
  | .imaginaryUnit, _, _, _, _, _ => by
    rw [Atom.expression, form]
    rfl
  | .root q n, _, hnormal, hrecognised, _, _ => by
    have hroot := Form.root_ofRat_of_normal (p := p) hnormal hrecognised.1.1
    cases hnormal with
    | root hq hone hlow hhigh hextract =>
      rw [Atom.expression]
      exact form_rootOf (form_ofRat p q) hroot (by omega) hhigh
  | .radical f n, _, hnormal, hrecognised, _, hreadable => by
    have hinner := Atom.throughout_radical.1 hrecognised.2
    have hreadable := Atom.throughout_radical.1 hreadable
    cases hnormal with
    | radical hf hne hlow hhigh =>
      rw [Atom.expression]
      exact form_rootOf (Form.form_expression hf hinner hreadable) hrecognised.1 (by omega) hhigh
  | .apply g args, _, hnormal, hrecognised, _, hreadable => by
    have hinner := Atom.throughout_apply.1 hrecognised.2
    have hreadable := Atom.throughout_apply.1 hreadable
    cases hnormal with
    | apply _ hargs =>
      rw [Atom.expression, form, Form.forms_expressions hargs hinner hreadable]
      exact hrecognised.1
  | .power f g, _, hnormal, hrecognised, hlimits, hreadable => by
    obtain ⟨hinner, hinner'⟩ := Atom.throughout_power.1 hrecognised.2
    obtain ⟨hreadable, hreadable'⟩ := Atom.throughout_power.1 hreadable
    cases hnormal with
    | power hf hg =>
      have hexponent := Form.form_expression hg hinner' hreadable'
      rw [Atom.expression, form, hexponent]
      by_cases he : f = Form.e
      · rw [if_pos he]
        exact congrArg Except.ok (hlimits.2 he)
      · have hbase := Form.form_expression hf hinner hreadable
        rw [if_neg he, isE_eq_false hbase he, hbase]
        exact hrecognised.1 he
  | .reciprocal f, k, hnormal, hrecognised, hlimits, hreadable => by
    have hinner := Atom.throughout_reciprocal.1 hrecognised.2
    have hreadable := Atom.throughout_reciprocal.1 hreadable
    cases hnormal with
    | reciprocal hf hsize hlead =>
      rw [Atom.expression]
      refine form_quotient (form_ofRat p 1) (Form.form_expression hf hinner hreadable) ?_
      rw [Form.divide?, hlimits.2, Option.map_some]
      exact congrArg some (Form.one_mul_ofAtom (Monomial.reduced_reciprocal f))

theorem Monomial.form_factors : ∀ {factors : List (Atom × Int)},
    (∀ x ∈ factors, x.1.IsNormal) → (∀ x ∈ factors, x.1.Everywhere (Atom.Recognised p)) →
    (∀ x ∈ factors, Monomial.FactorReadable x ∧ x.1.Throughout Monomial.FactorReadable) →
    ∀ x ∈ factors, x.1.expression.form p = .ok (ofAtom x.1)
  | [], _, _, _ => List.forall_mem_nil _
  | (a, k) :: factors, hnormal, hrecognised, hreadable => by
    obtain ⟨hnormal, hrest⟩ := List.forall_mem_cons.1 hnormal
    obtain ⟨hrecognised, hrest'⟩ := List.forall_mem_cons.1 hrecognised
    obtain ⟨hreadable, hrest''⟩ := List.forall_mem_cons.1 hreadable
    exact List.forall_mem_cons.2 ⟨Atom.form_expression hnormal hrecognised hreadable.1 hreadable.2,
      Monomial.form_factors hrest hrest' hrest''⟩

theorem Form.form_terms : ∀ {terms : List (Monomial × Rat)},
    (∀ t ∈ terms, ∀ x ∈ t.1.factors, x.1.IsNormal) →
    (∀ t ∈ terms, ∀ x ∈ t.1.factors, x.1.Everywhere (Atom.Recognised p)) →
    (∀ t ∈ terms, ∀ x ∈ t.1.factors,
      Monomial.FactorReadable x ∧ x.1.Throughout Monomial.FactorReadable) →
    ∀ t ∈ terms, ∀ x ∈ t.1.factors, x.1.expression.form p = .ok (ofAtom x.1)
  | [], _, _, _ => List.forall_mem_nil _
  | (⟨factors⟩, q) :: terms, hnormal, hrecognised, hreadable => by
    obtain ⟨hnormal, hrest⟩ := List.forall_mem_cons.1 hnormal
    obtain ⟨hrecognised, hrest'⟩ := List.forall_mem_cons.1 hrecognised
    obtain ⟨hreadable, hrest''⟩ := List.forall_mem_cons.1 hreadable
    exact List.forall_mem_cons.2 ⟨Monomial.form_factors hnormal hrecognised hreadable,
      Form.form_terms hrest hrest' hrest''⟩

/-- A normal form whose atoms are recognised and within the limits is the form of its
expression. -/
theorem Form.form_expression : ∀ {f : Form}, f.IsNormal → f.Everywhere (Atom.Recognised p) →
    f.Throughout Monomial.FactorReadable → f.expression.form p = .ok f
  | ⟨terms⟩, hnormal, hrecognised, hreadable => by
    have hreadable := Form.throughout_iff.1 hreadable
    cases hnormal with
    | intro harranged hnormal =>
      have hatoms := Form.form_terms hnormal (Form.everywhere_iff.1 hrecognised) hreadable
      rw [Form.expression, termExpressions_eq]
      refine form_sumOfTerms harranged.sorted (fun t ht => (harranged.terms t ht).1)
        fun t ht q => ?_
      exact form_fractionOf (Monomial.reduced_of_readable (harranged.terms t ht).2 (hnormal t ht)
        fun x hx => (hreadable t ht x hx).1) (fun x hx => (hreadable t ht x hx).1) (hatoms t ht) q

theorem Form.forms_expressions : ∀ {fs : List Form}, (∀ f ∈ fs, f.IsNormal) →
    (∀ f ∈ fs, f.Everywhere (Atom.Recognised p)) →
    (∀ f ∈ fs, f.Throughout Monomial.FactorReadable) → forms p (Form.expressions fs) = .ok fs
  | [], _, _, _ => by
    rw [Form.expressions, forms]
  | f :: fs, hnormal, hrecognised, hreadable => by
    obtain ⟨hnormal, hrest⟩ := List.forall_mem_cons.1 hnormal
    obtain ⟨hrecognised, hrest'⟩ := List.forall_mem_cons.1 hrecognised
    obtain ⟨hreadable, hrest''⟩ := List.forall_mem_cons.1 hreadable
    rw [Form.expressions, forms, Form.form_expression hnormal hrecognised hreadable,
      Form.forms_expressions hrest hrest' hrest'']
    rfl

end

end Resolvent

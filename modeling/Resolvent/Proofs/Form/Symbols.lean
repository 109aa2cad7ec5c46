import Resolvent.Form.Plain
import Resolvent.Proofs.Expression.Identifiers
import Resolvent.Proofs.Form.Monomials

/-!
# Symbols of forms

Arithmetic invents no symbols: what holds of all symbols of the operands holds of those of the
result.  `Form.SymbolsIn S` says that all symbols of a form are in the class `S`, however deep they
are nested; sums, products, powers, inverses and parts of forms stay within it.

`Expression.Written S` describes the expressions that forms with symbols in the class `S` are written
as (`Form.expression_written`): they are made of numbers, constants and symbols by operations, their
sums and products have two members at least, and they call no functions of the user.
-/

namespace Resolvent

variable {S : Nat → Prop}

/-- All symbols of the atom are in a class. -/
def Atom.SymbolsIn (S : Nat → Prop) (a : Atom) : Prop := ∀ id, a.mentions id = true → S id

/-- All symbols of the monomial are in a class. -/
def Monomial.SymbolsIn (S : Nat → Prop) (m : Monomial) : Prop :=
  ∀ x ∈ m.factors, x.1.SymbolsIn S

/-- All symbols of the form are in a class. -/
def Form.SymbolsIn (S : Nat → Prop) (f : Form) : Prop := ∀ id, f.mentions id = true → S id

/-! ### Occurrence -/

attribute [local simp] Atom.mentions Monomial.mentions Monomial.factorsMention Form.mentions
  Form.termsMention Form.anyMentions

theorem Monomial.factorsMention_iff {id : Nat} {factors : List (Atom × Int)} :
    factorsMention id factors = true ↔ ∃ x ∈ factors, x.1.mentions id = true := by
  induction factors with
  | nil => simp
  | cons x factors ih => rw [factorsMention, Bool.or_eq_true, ih, List.exists_mem_cons_iff]

theorem Form.termsMention_iff {id : Nat} {terms : List (Monomial × Rat)} :
    termsMention id terms = true ↔ ∃ t ∈ terms, ∃ x ∈ t.1.factors, x.1.mentions id = true := by
  induction terms with
  | nil => simp
  | cons t terms ih =>
    obtain ⟨⟨factors⟩, q⟩ := t
    rw [termsMention, Bool.or_eq_true, ih, List.exists_mem_cons_iff, Monomial.mentions,
      Monomial.factorsMention_iff]

theorem Form.anyMentions_iff {id : Nat} {fs : List Form} :
    anyMentions id fs = true ↔ ∃ f ∈ fs, f.mentions id = true := by
  induction fs with
  | nil => simp
  | cons f fs ih => rw [anyMentions, Bool.or_eq_true, ih, List.exists_mem_cons_iff]

namespace Atom

theorem symbolsIn_symbol {id : Nat} : (symbol id).SymbolsIn S ↔ S id := by
  simp [SymbolsIn]

theorem symbolsIn_radical {f : Form} {n : Nat} : (radical f n).SymbolsIn S ↔ f.SymbolsIn S := by
  simp [SymbolsIn, Form.SymbolsIn]

theorem symbolsIn_reciprocal {f : Form} : (reciprocal f).SymbolsIn S ↔ f.SymbolsIn S := by
  simp [SymbolsIn, Form.SymbolsIn]

theorem symbolsIn_power {f g : Form} :
    (power f g).SymbolsIn S ↔ f.SymbolsIn S ∧ g.SymbolsIn S := by
  simp only [SymbolsIn, Form.SymbolsIn, mentions, Bool.or_eq_true, or_imp, forall_and]

theorem symbolsIn_apply {b : Builtin} {fs : List Form} :
    (apply b fs).SymbolsIn S ↔ ∀ f ∈ fs, f.SymbolsIn S := by
  simp only [SymbolsIn, Form.SymbolsIn, mentions, Form.anyMentions_iff, forall_exists_index,
    and_imp]
  exact ⟨fun h f hf id => h id f hf, fun h id f hf => h f hf id⟩

theorem symbolsIn_pi : pi.SymbolsIn S := nofun

theorem symbolsIn_e : e.SymbolsIn S := nofun

theorem symbolsIn_imaginaryUnit : imaginaryUnit.SymbolsIn S := nofun

theorem symbolsIn_root (q : Rat) (n : Nat) : (root q n).SymbolsIn S := nofun

end Atom

namespace Form

variable {f g : Form}

theorem symbolsIn_iff :
    f.SymbolsIn S ↔ ∀ t ∈ f.terms, ∀ x ∈ t.1.factors, x.1.SymbolsIn S := by
  obtain ⟨terms⟩ := f
  simp only [SymbolsIn, Atom.SymbolsIn, mentions, termsMention_iff]
  exact ⟨fun h t ht x hx id hid => h id ⟨t, ht, x, hx, hid⟩,
    fun h id ⟨t, ht, x, hx, hid⟩ => h t ht x hx id hid⟩

theorem symbolsIn_iff_monomialsIn : f.SymbolsIn S ↔ f.MonomialsIn (Monomial.SymbolsIn S) :=
  symbolsIn_iff

/-! ### Sums -/

theorem symbolsIn_zero : zero.SymbolsIn S := symbolsIn_iff_monomialsIn.2 monomialsIn_zero

theorem symbolsIn_ofTerm {m : Monomial} (h : ∀ x ∈ m.factors, x.1.SymbolsIn S) (q : Rat) :
    (ofTerm m q).SymbolsIn S := symbolsIn_iff_monomialsIn.2 (monomialsIn_ofTerm h q)

theorem symbolsIn_ofRat (q : Rat) : (ofRat q).SymbolsIn S :=
  symbolsIn_ofTerm (m := Monomial.one) (fun _ hx => absurd hx List.not_mem_nil) q

theorem symbolsIn_one : one.SymbolsIn S := symbolsIn_ofRat 1

theorem SymbolsIn.neg (h : f.SymbolsIn S) : f.neg.SymbolsIn S :=
  symbolsIn_iff_monomialsIn.2 (symbolsIn_iff_monomialsIn.1 h).neg

theorem SymbolsIn.scale (h : f.SymbolsIn S) (k : Rat) : (f.scale k).SymbolsIn S :=
  symbolsIn_iff_monomialsIn.2 ((symbolsIn_iff_monomialsIn.1 h).scale k)

theorem SymbolsIn.add (hf : f.SymbolsIn S) (hg : g.SymbolsIn S) : (f.add g).SymbolsIn S :=
  symbolsIn_iff_monomialsIn.2
    ((symbolsIn_iff_monomialsIn.1 hf).add (symbolsIn_iff_monomialsIn.1 hg))

theorem SymbolsIn.sub (hf : f.SymbolsIn S) (hg : g.SymbolsIn S) : (f.sub g).SymbolsIn S :=
  hf.add hg.neg

theorem symbolsIn_sumAll {fs : List Form} (h : ∀ f ∈ fs, f.SymbolsIn S) :
    (sumAll fs).SymbolsIn S :=
  sumAll_of_closed symbolsIn_zero (fun _ _ => SymbolsIn.add) h

/-! ### Products, powers and inverses -/

/-- What is kept of a product of atoms are its atoms and roots. -/
theorem symbolsIn_of_mem_kept {power : Form → Int → Option Form} {factors : List (Atom × Int)}
    (h : ∀ x ∈ factors, x.1.SymbolsIn S) :
    ∀ y ∈ (shares power factors).flatMap Share.kept, y.1.SymbolsIn S :=
  forall_kept Atom.symbolsIn_root h

/-- Normalisation invents no symbols. -/
theorem closed_symbolsIn : Monomial.Closed (Atom.SymbolsIn S) (Monomial.SymbolsIn S) where
  one := fun _ hx => absurd hx List.not_mem_nil
  atoms := fun h => h
  kept := fun _ _ h => Monomial.forall_collectFactors
    (symbolsIn_of_mem_kept (Monomial.forall_collectFactors h))
  radicand := fun h => symbolsIn_iff_monomialsIn.1 (Atom.symbolsIn_radical.1 h)
  reciprocal := Atom.symbolsIn_reciprocal.trans symbolsIn_iff_monomialsIn

theorem symbolsIn_ofFactors (c : Rat) {factors : List (Atom × Int)}
    (h : ∀ x ∈ factors, x.1.SymbolsIn S) : (ofFactors c factors).SymbolsIn S :=
  symbolsIn_iff_monomialsIn.2 (monomialsIn_ofFactors closed_symbolsIn c h)

theorem symbolsIn_ofAtom {a : Atom} (h : a.SymbolsIn S) : (ofAtom a).SymbolsIn S :=
  symbolsIn_ofFactors 1 fun x hx => by rwa [List.mem_singleton.1 hx]

theorem symbolsIn_imaginaryUnit : imaginaryUnit.SymbolsIn S :=
  symbolsIn_ofAtom Atom.symbolsIn_imaginaryUnit

theorem symbolsIn_pi : pi.SymbolsIn S := symbolsIn_ofAtom Atom.symbolsIn_pi

theorem symbolsIn_e : e.SymbolsIn S := symbolsIn_ofAtom Atom.symbolsIn_e

theorem SymbolsIn.mul (hf : f.SymbolsIn S) (hg : g.SymbolsIn S) : (f.mul g).SymbolsIn S :=
  symbolsIn_iff_monomialsIn.2
    ((symbolsIn_iff_monomialsIn.1 hf).mul closed_symbolsIn (symbolsIn_iff_monomialsIn.1 hg))

theorem SymbolsIn.pow (h : f.SymbolsIn S) {k : Int} (hg : f.pow? k = some g) : g.SymbolsIn S :=
  symbolsIn_iff_monomialsIn.2 ((symbolsIn_iff_monomialsIn.1 h).pow closed_symbolsIn hg)

theorem SymbolsIn.inverse (h : f.SymbolsIn S) (hg : f.inverse? = some g) : g.SymbolsIn S :=
  symbolsIn_iff_monomialsIn.2 ((symbolsIn_iff_monomialsIn.1 h).inverse closed_symbolsIn hg)

theorem SymbolsIn.divide (hf : f.SymbolsIn S) (hg : g.SymbolsIn S) {q : Form}
    (hq : f.divide? g = some q) : q.SymbolsIn S := by
  obtain ⟨i, hi, rfl⟩ := Option.map_eq_some_iff.1 hq
  exact hf.mul (hg.inverse hi)

/-! ### Parts -/

theorem SymbolsIn.split (h : f.SymbolsIn S) {re im : Form} (hs : f.splitComplex? = some (re, im)) :
    re.SymbolsIn S ∧ im.SymbolsIn S := by
  unfold splitComplex? at hs
  split at hs
  · obtain ⟨rfl, rfl⟩ := Prod.mk.inj (Option.some.inj hs)
    have h := symbolsIn_iff_monomialsIn.1 h
    exact ⟨symbolsIn_iff_monomialsIn.2 h.realPart, symbolsIn_iff_monomialsIn.2
      (h.imaginaryPart fun m hm x hx => hm x (List.mem_filter.1 hx).1)⟩
  · cases hs

theorem SymbolsIn.complexConjugate (h : f.SymbolsIn S) (hg : f.conjugate? = some g) :
    g.SymbolsIn S := by
  obtain ⟨⟨re, im⟩, hs, rfl⟩ := Option.map_eq_some_iff.1 hg
  exact (h.split hs).1.sub ((h.split hs).2.mul symbolsIn_imaginaryUnit)

end Form

/-! ### Expressions that forms are written as -/

namespace Expression

/-- The expressions that forms are written as whose symbols are in a class. -/
inductive Written (S : Nat → Prop) : Expression → Prop
  /-- Whole numbers. -/
  | integer (n : Int) : Written S (integer n)
  /-- Fractions. -/
  | fraction (q : Rat) : Written S (fraction q)
  /-- Symbols of the class. -/
  | symbol {id : Nat} (h : S id) : Written S (symbol id)
  /-- Constants. -/
  | constant (c : Constant) : Written S (constant c)
  /-- Sums of several members. -/
  | sum {es : List Expression} (hlength : 2 ≤ es.length) (hes : ∀ e ∈ es, Written S e) :
      Written S (sum es)
  /-- Products of several members. -/
  | product {es : List Expression} (hlength : 2 ≤ es.length) (hes : ∀ e ∈ es, Written S e) :
      Written S (product es)
  /-- Powers. -/
  | power {a b : Expression} (ha : Written S a) (hb : Written S b) : Written S (power a b)
  /-- Opposites. -/
  | opposite {a : Expression} (ha : Written S a) : Written S (opposite a)
  /-- Quotients. -/
  | quotient {a b : Expression} (ha : Written S a) (hb : Written S b) : Written S (quotient a b)
  /-- Built-in functions. -/
  | apply (code : Nat) {es : List Expression} (hes : ∀ e ∈ es, Written S e) :
      Written S (apply code es)

variable {e : Expression} {es : List Expression}

theorem Written.identifiersIn (h : e.Written S) : e.IdentifiersIn S := by
  induction h with
  | integer | fraction | constant => exact identifiersIn_of_eq_nil (by rw [identifiers])
  | symbol h => exact identifiersIn_symbol.2 h
  | sum _ _ ih => exact identifiersIn_sum.2 ih
  | product _ _ ih => exact identifiersIn_product.2 ih
  | power _ _ ha hb => exact identifiersIn_power.2 ⟨ha, hb⟩
  | opposite _ ha => exact identifiersIn_opposite.2 ha
  | quotient _ _ ha hb => exact identifiersIn_quotient.2 ⟨ha, hb⟩
  | apply _ _ ih => exact identifiersIn_apply.2 ih

/-! ### Parts of sums of fractions -/

theorem written_ofRat (q : Rat) : (ofRat q).Written S := by
  unfold ofRat
  split
  · exact .integer _
  · exact .fraction q

theorem written_sumOf (h : ∀ e ∈ es, e.Written S) : (sumOf es).Written S := by
  match es, h with
  | [], _ => exact .integer 0
  | [e], h => exact h e List.mem_cons_self
  | e :: e' :: es, h => exact .sum (by simp) h

theorem written_productOf (h : ∀ e ∈ es, e.Written S) : (productOf es).Written S := by
  match es, h with
  | [], _ => exact .integer 1
  | [e], h => exact h e List.mem_cons_self
  | e :: e' :: es, h => exact .product (by simp) h

theorem Written.rootOf (h : e.Written S) (n : Nat) : (e.rootOf n).Written S := by
  unfold Expression.rootOf
  split
  · exact .apply _ (List.forall_mem_singleton.2 h)
  · exact .apply _ (List.forall_mem_cons.2 ⟨h, List.forall_mem_singleton.2 (.integer _)⟩)

theorem Written.powerOf (h : e.Written S) (k : Int) : (powerOf e k).Written S := by
  unfold Expression.powerOf
  split
  · exact h
  · exact .power h (.integer k)

theorem Written.ite {a b : Expression} {c : Prop} [Decidable c] (ha : a.Written S)
    (hb : b.Written S) : (if c then a else b).Written S := by
  split
  · exact ha
  · exact hb

theorem written_fractionOf {factors : List Factor} (h : ∀ x ∈ factors, x.1.Written S) (q : Rat) :
    (fractionOf q factors).Written S := by
  have hproduct : ∀ (n : Nat) (keep : Factor → Bool) (exponent : Factor → Int),
      (productOf ((if n = 1 then [] else [ofRat n]) ++
        (factors.filter keep).map fun x => powerOf x.1 (exponent x))).Written S := by
    intro n keep exponent
    refine written_productOf fun x hx => ?_
    rcases List.mem_append.1 hx with hx | hx
    · split at hx
      · cases hx
      · rw [List.mem_singleton.1 hx]
        exact written_ofRat _
    · obtain ⟨y, hy, rfl⟩ := List.mem_map.1 hx
      exact (h y (List.mem_filter.1 hy).1).powerOf _
  unfold fractionOf
  split
  · exact written_ofRat q
  · refine .ite (.opposite ?_) ?_
    all_goals exact .ite (hproduct _ _ _) (.quotient (hproduct _ _ _) (hproduct _ _ _))

theorem mem_constantLast {terms : List (Rat × List Factor)} {t : Rat × List Factor}
    (h : t ∈ constantLast terms) : t ∈ terms := by
  unfold constantLast at h
  split at h
  · rcases List.mem_append.1 h with h | h
    · exact List.mem_cons_of_mem _ h
    · rw [List.mem_singleton.1 h]
      exact List.mem_cons_self
  · exact h

theorem written_sumOfTerms {terms : List (Rat × List Factor)}
    (h : ∀ t ∈ terms, ∀ x ∈ t.2, x.1.Written S) : (sumOfTerms terms).Written S := by
  have hsum : ∀ scale : Rat → Rat, (sumOf ((constantLast terms).map fun t =>
      fractionOf (scale t.1) t.2)).Written S := by
    refine fun scale => written_sumOf fun e he => ?_
    obtain ⟨t, ht, rfl⟩ := List.mem_map.1 he
    exact written_fractionOf (h t (mem_constantLast ht)) _
  unfold sumOfTerms
  split
  · exact .integer 0
  · exact written_ofRat _
  · dsimp only
    split
    · next d _ => exact .quotient (hsum (· * d)) (written_ofRat _)
    · exact hsum id

end Expression

/-! ### Expressions of forms -/

open Expression in
mutual

theorem Atom.expression_written : ∀ {a : Atom}, a.SymbolsIn S → a.expression.Written S
  | .symbol id, h => by
    rw [Atom.expression]
    exact .symbol (Atom.symbolsIn_symbol.1 h)
  | .pi, _ | .e, _ | .imaginaryUnit, _ => by
    rw [Atom.expression]
    exact .constant _
  | .root q n, _ => by
    rw [Atom.expression]
    exact (written_ofRat q).rootOf n
  | .radical f n, h => by
    rw [Atom.expression]
    exact (Form.expression_written (Atom.symbolsIn_radical.1 h)).rootOf n
  | .apply _ args, h => by
    rw [Atom.expression]
    exact .apply _ (Form.expressions_written (Atom.symbolsIn_apply.1 h))
  | .power f g, h => by
    obtain ⟨hf, hg⟩ := Atom.symbolsIn_power.1 h
    rw [Atom.expression]
    exact .power (.ite (.constant _) (Form.expression_written hf)) (Form.expression_written hg)
  | .reciprocal f, h => by
    rw [Atom.expression]
    exact .quotient (.integer 1) (Form.expression_written (Atom.symbolsIn_reciprocal.1 h))

theorem Monomial.factorExpressions_written : ∀ {factors : List (Atom × Int)},
    (∀ x ∈ factors, x.1.SymbolsIn S) →
    ∀ y ∈ Monomial.factorExpressions factors, y.1.Written S
  | [], _ => by
    rw [Monomial.factorExpressions]
    exact List.forall_mem_nil _
  | (a, k) :: factors, h => by
    rw [Monomial.factorExpressions]
    exact List.forall_mem_cons.2 ⟨Atom.expression_written (h (a, k) List.mem_cons_self),
      Monomial.factorExpressions_written fun x hx => h x (List.mem_cons_of_mem _ hx)⟩

/-- What the expression of a form is made of. -/
theorem Form.expression_written : ∀ {f : Form}, f.SymbolsIn S → f.expression.Written S
  | ⟨terms⟩, h => by
    rw [Form.expression]
    exact written_sumOfTerms (Form.termExpressions_written (Form.symbolsIn_iff.1 h))

theorem Form.termExpressions_written : ∀ {terms : List (Monomial × Rat)},
    (∀ t ∈ terms, ∀ x ∈ t.1.factors, x.1.SymbolsIn S) →
    ∀ t ∈ Form.termExpressions terms, ∀ x ∈ t.2, x.1.Written S
  | [], _ => by
    rw [Form.termExpressions]
    exact List.forall_mem_nil _
  | (⟨factors⟩, q) :: terms, h => by
    rw [Form.termExpressions, Monomial.expressions]
    exact List.forall_mem_cons.2
      ⟨Monomial.factorExpressions_written (h (⟨factors⟩, q) List.mem_cons_self),
        Form.termExpressions_written fun t ht => h t (List.mem_cons_of_mem _ ht)⟩

theorem Form.expressions_written : ∀ {fs : List Form},
    (∀ f ∈ fs, f.SymbolsIn S) → ∀ e ∈ Form.expressions fs, e.Written S
  | [], _ => by
    rw [Form.expressions]
    exact List.forall_mem_nil _
  | f :: fs, h => by
    rw [Form.expressions]
    exact List.forall_mem_cons.2 ⟨Form.expression_written (h f List.mem_cons_self),
      Form.expressions_written fun g hg => h g (List.mem_cons_of_mem _ hg)⟩

end

end Resolvent

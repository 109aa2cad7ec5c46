import Mathlib.Algebra.BigOperators.Group.List.Basic
import Mathlib.Algebra.GroupWithZero.Basic
import Mathlib.Data.Rat.Cast.CharZero
import Resolvent.Form.Plain
import Resolvent.Number.Digits
import Resolvent.Proofs.Form.RoundTrip
import Resolvent.Proofs.Form.Valuation
import Resolvent.Proofs.Form.Value

/-!
# The number that the expression of a form has

An `Arithmetic` gives the symbols and constants of expressions numbers of a field, and says what
functions and powers are of their operands.  An operand is given as it is written together with its
number, so a root may stand for a number of its own for each radicand that is written; only powers
with whole exponents are fixed.  `Expression.number?` is the number of an expression that is read as
ordinary arithmetic, if it has one: a quotient by zero has none, and neither have matrices and calls
of functions of the user.  Doubles are read as the decimal numbers that their digits denote.

The numbers of sums, products, powers and roots are those of their parts in the shapes in which
expressions are built to be stored (`Expression.number?_sumOf`, `Expression.number?_productOf`,
`Expression.number?_powerOf`, `Expression.number?_rootOf`).

Expressions read as arithmetic give the atoms of forms the values of a valuation
(`Arithmetic.Interprets`) if what is written for an atom is read as its value: roots, functions and
powers are applied to what is written for their operands, and a reciprocal is the inverse of its
sum.  Then the expression of a form has the value of the form (`Form.number?_expression`): the
fraction of a term has the value of the term (`Expression.number?_fractionOf`), negative exponents
stand below the bar, and a common denominator scales all terms and divides their sum
(`Expression.number?_sumOfTerms`).
-/

namespace Resolvent

/-- Numbers for what expressions are made of. -/
structure Arithmetic (K : Type*) [Field K] where
  /-- The number of a symbol. -/
  symbol : Nat → K
  /-- The number of a constant. -/
  constant : Constant → K
  /-- The number of a function, given its arguments as they are written and their numbers. -/
  function : Builtin → List (Expression × K) → Option K
  /-- The number of a power, given its base and its exponent. -/
  power : Expression × K → Expression × K → Option K
  /-- Whole powers are those of the field. -/
  power_integer : ∀ (base : Expression × K) (k : Int), 0 < k ∨ base.2 ≠ 0 →
    power base (.integer k, k) = some (base.2 ^ k)

variable {K : Type*} [Field K]

/-- The number of a root. -/
def Arithmetic.root (R : Arithmetic K) (radicand : Expression × K) (index : Nat) : Option K :=
  if index = 2 then R.function .sqrt [radicand]
  else R.function .root [radicand, (.integer index, index)]

namespace Expression

variable (R : Arithmetic K)

open scoped Classical in
mutual

/-- The number of an expression, if it has one. -/
@[simp]
noncomputable def number? : Expression → Option K
  | integer n => some n
  | fraction q => some q
  | float bits => (Double.shortestRational? (Float.ofBits bits)).map fun q : Rat => (q : K)
  | symbol id => some (R.symbol id)
  | constant c => some (R.constant c)
  | sum args => (numbers? args).map List.sum
  | product args => (numbers? args).map List.prod
  | power base exponent =>
    (number? base).bind fun b => (number? exponent).bind fun k => R.power (base, b) (exponent, k)
  | opposite arg => (number? arg).map fun x => -x
  | quotient numerator denominator =>
    (number? numerator).bind fun n => (number? denominator).bind fun d =>
      if d = 0 then none else some (n / d)
  | apply code args =>
    (Builtin.ofCode? code).bind fun f => (numbers? args).bind fun xs =>
      R.function f (args.zip xs)
  | undefined | unreal | call _ _ | matrix _ _ _ => none

/-- The numbers of the members of a list, if all have one. -/
@[simp]
noncomputable def numbers? : List Expression → Option (List K)
  | [] => some []
  | e :: es => (number? e).bind fun x => (numbers? es).map (x :: ·)

end

variable {R} {e : Expression} {x : K}

theorem numbers?_cons (he : e.number? R = some x) {es : List Expression} {xs : List K}
    (hes : numbers? R es = some xs) : numbers? R (e :: es) = some (x :: xs) := by
  rw [numbers?, he, hes]
  rfl

theorem numbers?_map {α : Type} {ys : List α} {written : α → Expression} {number : α → K}
    (h : ∀ y ∈ ys, (written y).number? R = some (number y)) :
    numbers? R (ys.map written) = some (ys.map number) := by
  induction ys with
  | nil => rw [List.map_nil, numbers?]; rfl
  | cons y ys ih =>
    obtain ⟨hy, hys⟩ := List.forall_mem_cons.1 h
    exact numbers?_cons hy (ih hys)

/-! ### Expressions that are built to be stored -/

theorem number?_sumOf {es : List Expression} {xs : List K} (h : numbers? R es = some xs) :
    (sumOf es).number? R = some xs.sum := by
  match es, h with
  | [], h =>
    rw [numbers?] at h
    cases h
    rw [sumOf, number?, Int.cast_zero, List.sum_nil]
  | [e], h =>
    rw [numbers?, numbers?] at h
    obtain ⟨x, hx, h⟩ := Option.bind_eq_some_iff.1 h
    cases h
    rw [sumOf_singleton, hx, List.sum_singleton]
  | e :: e' :: es, h =>
    change (sum (e :: e' :: es)).number? R = _
    rw [number?, h, Option.map_some]

theorem number?_productOf {es : List Expression} {xs : List K} (h : numbers? R es = some xs) :
    (productOf es).number? R = some xs.prod := by
  match es, h with
  | [], h =>
    rw [numbers?] at h
    cases h
    rw [productOf, number?, Int.cast_one, List.prod_nil]
  | [e], h =>
    rw [numbers?, numbers?] at h
    obtain ⟨x, hx, h⟩ := Option.bind_eq_some_iff.1 h
    cases h
    rw [productOf_singleton, hx, List.prod_singleton]
  | e :: e' :: es, h =>
    change (product (e :: e' :: es)).number? R = _
    rw [number?, h, Option.map_some]

theorem number?_opposite (h : e.number? R = some x) : (opposite e).number? R = some (-x) := by
  rw [number?, h, Option.map_some]

theorem number?_quotient (h : e.number? R = some x) {d : Expression} {y : K}
    (hd : d.number? R = some y) (hy : y ≠ 0) : (quotient e d).number? R = some (x / y) := by
  rw [number?, h, hd, Option.bind_some, Option.bind_some, if_neg hy]

theorem number?_powerOf (h : e.number? R = some x) {k : Int} (hk : 0 < k ∨ x ≠ 0) :
    (powerOf e k).number? R = some (x ^ k) := by
  unfold powerOf
  split
  · next hone => rw [h, hone, zpow_one]
  · rw [number?, h, number?, Option.bind_some, Option.bind_some]
    exact R.power_integer (e, x) k hk

theorem number?_apply {f : Builtin} {es : List Expression} {xs : List K}
    (h : numbers? R es = some xs) :
    (apply f.code es).number? R = R.function f (es.zip xs) := by
  rw [number?, Builtin.ofCode?_code, h, Option.bind_some, Option.bind_some]

theorem number?_rootOf (h : e.number? R = some x) (n : Nat) :
    (e.rootOf n).number? R = R.root (e, x) n := by
  have hindex : (integer n).number? R = some (n : K) := by rw [number?, Int.cast_natCast]
  have hnil : numbers? R [] = some [] := by rw [numbers?]
  unfold rootOf Arithmetic.root
  split
  · exact number?_apply (numbers?_cons h hnil)
  · exact number?_apply (numbers?_cons h (numbers?_cons hindex hnil))

theorem number?_ofRat [CharZero K] (q : Rat) : (ofRat q).number? R = some (q : K) := by
  unfold ofRat
  split
  · next n hn =>
    obtain ⟨hn, -⟩ := Option.filter_eq_some_iff.1 hn
    obtain ⟨hden, rfl⟩ := Rational.toInteger?_eq_some_iff.1 hn
    have hq : ((q.num : Rat) : K) = (q.num : K) := Rat.cast_intCast q.num
    rw [number?, ← hq, Rat.coe_int_num_of_den_eq_one hden]
  · rw [number?]

end Expression

end Resolvent

/-! ## The number that the expression of a form has -/

namespace Resolvent

variable {K : Type*} [Field K] {R : Arithmetic K} {v : Atom → K}

/-- What is written for the atom is read as its value. -/
def Arithmetic.Interprets (R : Arithmetic K) (v : Atom → K) : Atom → Prop
  | .symbol id => R.symbol id = v (.symbol id)
  | .pi => R.constant .pi = v .pi
  | .e => R.constant .e = v .e
  | .imaginaryUnit => R.constant .imaginaryUnit = v .imaginaryUnit
  | .root q n => R.root (Expression.ofRat q, (q : K)) n = some (v (.root q n))
  | .radical f n => R.root (f.expression, f.value v) n = some (v (.radical f n))
  | .apply g args =>
    R.function g (args.map fun f => (f.expression, f.value v)) = some (v (.apply g args))
  | .power f g =>
    R.power (f.expression, f.value v) (g.expression, g.value v) = some (v (.power f g))
  | .reciprocal f => v (.reciprocal f) * f.value v = 1

/-! ### Fractions -/

namespace Monomial

theorem factorsValue_denominator (m : Monomial) : factorsValue v m.denominator =
    (factorsValue v (m.factors.filter fun x => !decide (0 < x.2)))⁻¹ := by
  have h := factorsValue_scaleExponents v ⟨m.denominator⟩ (-1)
  rw [Expression.scaleExponents_denominator, zpow_neg_one] at h
  rw [h, inv_inv, value]

/-- The value of a monomial is that of its numerator over that of its denominator. -/
theorem value_eq_div (m : Monomial) :
    m.value v = factorsValue v m.numerator / factorsValue v m.denominator := by
  rw [factorsValue_denominator, div_inv_eq_mul, numerator, ← factorsValue_append, value]
  exact ((List.filter_append_perm _ m.factors).map _).prod_eq.symm

end Monomial

namespace Expression

variable [CharZero K]

theorem magnitude_cast (q : Rat) : ((Rational.magnitude q).num.natAbs : K) /
    ((Rational.magnitude q).den : K) = (Rational.magnitude q : K) := by
  have h : ((_ : Rat) : K) = _ := congrArg _ (magnitude_eq q)
  rwa [Rat.cast_mul, Rat.cast_inv, Rat.cast_natCast, Rat.cast_natCast, ← div_eq_mul_inv] at h

/-- A product of a natural number and powers of atoms. -/
theorem number?_productOf_powers {xs : List (Atom × Int)}
    (h : ∀ x ∈ xs, x.1.expression.number? R = some (v x.1)) (hne : ∀ x ∈ xs, v x.1 ≠ 0) (n : Nat) :
    (productOf ((if n = 1 then [] else [ofRat n]) ++
      xs.map fun x => powerOf x.1.expression x.2)).number? R =
        some (n * Monomial.factorsValue v xs) := by
  have hpowers : numbers? R (xs.map fun x => powerOf x.1.expression x.2) =
      some (xs.map fun x => v x.1 ^ x.2) :=
    numbers?_map fun x hx => number?_powerOf (h x hx) (.inr (hne x hx))
  split
  · next hn => rw [List.nil_append, number?_productOf hpowers, hn, Nat.cast_one, one_mul]; rfl
  · have hn := number?_ofRat (R := R) n
    rw [Rat.cast_natCast] at hn
    rw [List.singleton_append, number?_productOf (numbers?_cons hn hpowers), List.prod_cons]
    rfl

section Fraction

variable {m : Monomial} (hatoms : ∀ x ∈ m.factors, x.1.expression.number? R = some (v x.1))
  (hne : ∀ x ∈ m.factors, v x.1 ≠ 0)

include hatoms hne

theorem number?_numerator (n : Nat) :
    (productOf ((if n = 1 then [] else [ofRat n]) ++
      ((m.factors.map fun x => (x.1.expression, x.2)).filter fun x => decide (0 < x.2)).map
        fun x => powerOf x.1 x.2)).number? R = some (n * Monomial.factorsValue v m.numerator) := by
  rw [List.filter_map, List.map_map]
  exact number?_productOf_powers (fun x hx => hatoms x (List.mem_filter.1 hx).1)
    (fun x hx => hne x (List.mem_filter.1 hx).1) n

variable (hlow : ∀ x ∈ m.factors, -2147483648 < x.2)

include hlow

theorem number?_denominator (n : Nat) :
    (productOf ((if n = 1 then [] else [ofRat n]) ++
      ((m.factors.map fun x => (x.1.expression, x.2)).filter fun x => !decide (0 < x.2)).map
        fun x => powerOf x.1 (Width.negate32 x.2))).number? R =
          some (n * Monomial.factorsValue v m.denominator) := by
  have hpowers : ((m.factors.map fun x => (x.1.expression, x.2)).filter
      fun x => !decide (0 < x.2)).map (fun x => powerOf x.1 (Width.negate32 x.2)) =
      m.denominator.map fun x => powerOf x.1.expression x.2 := by
    rw [List.filter_map, List.map_map, Monomial.denominator, List.map_map]
    refine List.map_congr_left fun x hx => ?_
    obtain ⟨hmem, hneg⟩ := List.mem_filter.1 hx
    have hneg : x.2 ≤ 0 := by simpa using hneg
    exact congrArg (powerOf x.1.expression)
      (Width.negate32_of_mem (hlow x hmem) (hneg.trans (by decide)))
  have hbelow : ∀ y ∈ m.denominator, y.1.expression.number? R = some (v y.1) ∧ v y.1 ≠ 0 := by
    intro y hy
    obtain ⟨x, hx, rfl⟩ := List.mem_map.1 hy
    have hmem := (List.mem_filter.1 hx).1
    exact ⟨hatoms x hmem, hne x hmem⟩
  rw [hpowers]
  exact number?_productOf_powers (fun y hy => (hbelow y hy).1) (fun y hy => (hbelow y hy).2) n

/-- The fraction of a term has the value of the term. -/
theorem number?_fractionOf (q : Rat) :
    (fractionOf q (m.factors.map fun x => (x.1.expression, x.2))).number? R =
      some (q * m.value v) := by
  have htop := number?_numerator hatoms hne (Rational.magnitude q).num.natAbs
  have hbottom := number?_denominator hatoms hne hlow (Rational.magnitude q).den
  have hsign : ∀ {e : Expression}, e.number? R = some (Rational.magnitude q * m.value v) →
      (if q < 0 then opposite e else e).number? R = some (q * m.value v) := by
    intro e he
    rw [Rational.magnitude] at he
    split
    · next hneg =>
      rw [if_pos hneg] at he
      rw [number?_opposite he, Rat.cast_neg, neg_mul, neg_neg]
    · next hpos => rwa [if_neg hpos] at he
  have hvalue : (Rational.magnitude q : K) * m.value v =
      (Rational.magnitude q).num.natAbs * Monomial.factorsValue v m.numerator /
        ((Rational.magnitude q).den * Monomial.factorsValue v m.denominator) := by
    rw [mul_div_mul_comm, magnitude_cast, ← Monomial.value_eq_div]
  unfold fractionOf
  split
  · next hnil =>
    have hnil : m.factors = [] := by simpa using hnil
    rw [number?_ofRat, Monomial.value, hnil, Monomial.factorsValue_nil, mul_one]
  · refine hsign ?_
    rw [hvalue]
    split
    · next hempty =>
      -- what stands below the bar is the empty product
      rw [List.isEmpty_iff.1 hempty, productOf, number?, Int.cast_one] at hbottom
      rw [htop, ← Option.some.inj hbottom, div_one]
    · refine number?_quotient htop hbottom (mul_ne_zero (Nat.cast_ne_zero.2 (Rat.den_ne_zero _)) ?_)
      rw [Monomial.factorsValue_denominator]
      exact inv_ne_zero (Monomial.factorsValue_ne_zero fun x hx => hne x (List.mem_filter.1 hx).1)

end Fraction

/-! ### Sums of fractions -/

omit [CharZero K] in
theorem termsValue_addends (terms : List (Monomial × Rat)) :
    Form.termsValue v (addends terms) = Form.termsValue v terms := by
  match terms with
  | [] => rfl
  | (⟨[]⟩, q) :: rest => simp [addends, Form.termsValue, add_comm]
  | (⟨_ :: _⟩, q) :: rest => rfl

/-- The fractions of terms have the values of the terms, whatever their coefficients are. -/
def FractionsValued (R : Arithmetic K) (v : Atom → K) (terms : List (Monomial × Rat)) : Prop :=
  ∀ t ∈ terms, ∀ q : Rat,
    (fractionOf q (t.1.factors.map fun x => (x.1.expression, x.2))).number? R =
      some (q * t.1.value v)

variable {terms : List (Monomial × Rat)}

/-- The sum of the fractions of terms whose coefficients are scaled. -/
theorem number?_sumOf_written (h : FractionsValued R v terms) (d : Rat) :
    (sumOf ((constantLast (written terms)).map fun t => fractionOf (t.1 * d) t.2)).number? R =
      some (Form.termsValue v terms * d) := by
  have hnumbers : numbers? R ((written (addends terms)).map fun t => fractionOf (t.1 * d) t.2) =
      some ((addends terms).map fun t => ((t.2 * d : Rat) : K) * t.1.value v) := by
    rw [written, List.map_map]
    exact numbers?_map fun t ht => h t (mem_addends.1 ht) (t.2 * d)
  rw [constantLast_written, number?_sumOf hnumbers, ← termsValue_addends, Form.termsValue,
    ← List.sum_map_mul_right]
  refine congrArg (fun xs => some (List.sum xs)) (List.map_congr_left fun t _ => ?_)
  rw [Rat.cast_mul]
  ring

/-- A sum of fractions has the value of the sum of its terms, over a common denominator or not. -/
theorem number?_sumOfTerms (h : FractionsValued R v terms) :
    (sumOfTerms (written terms)).number? R = some (Form.termsValue v terms) := by
  unfold sumOfTerms
  split
  · next hnil =>
    obtain rfl : terms = [] := by simpa [written] using hnil
    rw [number?, Int.cast_zero, Form.termsValue_nil]
  · next q hsingle =>
    obtain ⟨t, rfl, ht⟩ := List.map_eq_singleton_iff.1 hsingle
    obtain ⟨rfl, hnil⟩ := Prod.mk.inj ht
    have hq := h t List.mem_cons_self t.2
    rw [hnil] at hq
    rw [Form.termsValue_cons, Form.termsValue_nil, add_zero]
    exact hq
  · dsimp only
    split
    · next d hd =>
      have hne : (d : K) ≠ 0 := Rat.cast_ne_zero.2 (clearingScale?_ne_zero hd)
      rw [number?_quotient (number?_sumOf_written h d) (number?_ofRat d) hne,
        mul_div_cancel_right₀ _ hne]
    · have hsum := number?_sumOf_written h 1
      simp only [mul_one, Rat.cast_one] at hsum
      exact hsum

/-- The constant stands for Euler's number alone. -/
theorem expression_e : Form.e.expression = constant .e := by
  rw [Form.e, Form.ofAtom_of_reduced Monomial.reduced_e, Form.ofTerm_eq one_ne_zero]
  rfl

end Expression

/-! ### Forms -/

open Expression

mutual

/-- An atom that is interpreted is read as its value. -/
theorem Atom.number?_expression [CharZero K] : ∀ {a : Atom}, a.Everywhere (R.Interprets v) →
    (a.Throughout fun x => v x.1 ≠ 0) → (a.Throughout fun x => -2147483648 < x.2) →
    a.expression.number? R = some (v a)
  | .symbol _, h, _, _ | .pi, h, _, _ | .e, h, _, _ | .imaginaryUnit, h, _, _ => by
    rw [Atom.expression, number?]
    exact congrArg some h.1
  | .root q n, h, _, _ => by
    rw [Atom.expression, number?_rootOf (number?_ofRat q)]
    exact h.1
  | .radical f n, h, hne, hlow => by
    have hf := Form.number?_expression (Atom.throughout_radical.1 h.2)
      (Atom.throughout_radical.1 hne) (Atom.throughout_radical.1 hlow)
    rw [Atom.expression, number?_rootOf hf]
    exact h.1
  | .apply g args, h, hne, hlow => by
    have hargs := Form.numbers?_expressions (Atom.throughout_apply.1 h.2)
      (Atom.throughout_apply.1 hne) (Atom.throughout_apply.1 hlow)
    rw [Atom.expression, number?_apply hargs.1, hargs.2]
    exact h.1
  | .power f g, h, hne, hlow => by
    obtain ⟨hf, hg⟩ := Atom.throughout_power.1 h.2
    obtain ⟨hnef, hneg⟩ := Atom.throughout_power.1 hne
    obtain ⟨hlowf, hlowg⟩ := Atom.throughout_power.1 hlow
    have hbase : (if f = Form.e then constant .e else f.expression) = f.expression := by
      split
      · next he => rw [he, expression_e]
      · rfl
    rw [Atom.expression, hbase, number?, Form.number?_expression hf hnef hlowf,
      Form.number?_expression hg hneg hlowg]
    exact h.1
  | .reciprocal f, h, hne, hlow => by
    have hf := Form.number?_expression (Atom.throughout_reciprocal.1 h.2)
      (Atom.throughout_reciprocal.1 hne) (Atom.throughout_reciprocal.1 hlow)
    have hinverse : v (.reciprocal f) * f.value v = 1 := h.1
    have hone : (integer 1).number? R = some 1 := by rw [number?, Int.cast_one]
    rw [Atom.expression, number?_quotient hone hf (right_ne_zero_of_mul_eq_one hinverse),
      eq_one_div_of_mul_eq_one_left hinverse]

theorem Monomial.number?_factors [CharZero K] : ∀ {factors : List (Atom × Int)},
    (∀ x ∈ factors, x.1.Everywhere (R.Interprets v)) →
    (∀ x ∈ factors, x.1.Throughout fun y => v y.1 ≠ 0) →
    (∀ x ∈ factors, x.1.Throughout fun y => -2147483648 < y.2) →
    ∀ x ∈ factors, x.1.expression.number? R = some (v x.1)
  | [], _, _, _ => List.forall_mem_nil _
  | (a, k) :: factors, h, hne, hlow => by
    obtain ⟨h, hrest⟩ := List.forall_mem_cons.1 h
    obtain ⟨hne, hrest'⟩ := List.forall_mem_cons.1 hne
    obtain ⟨hlow, hrest''⟩ := List.forall_mem_cons.1 hlow
    exact List.forall_mem_cons.2 ⟨Atom.number?_expression h hne hlow,
      Monomial.number?_factors hrest hrest' hrest''⟩

theorem Form.number?_terms [CharZero K] : ∀ {terms : List (Monomial × Rat)},
    (∀ t ∈ terms, ∀ x ∈ t.1.factors, x.1.Everywhere (R.Interprets v)) →
    (∀ t ∈ terms, ∀ x ∈ t.1.factors, x.1.Throughout fun y => v y.1 ≠ 0) →
    (∀ t ∈ terms, ∀ x ∈ t.1.factors, x.1.Throughout fun y => -2147483648 < y.2) →
    ∀ t ∈ terms, ∀ x ∈ t.1.factors, x.1.expression.number? R = some (v x.1)
  | [], _, _, _ => List.forall_mem_nil _
  | (⟨factors⟩, q) :: terms, h, hne, hlow => by
    obtain ⟨h, hrest⟩ := List.forall_mem_cons.1 h
    obtain ⟨hne, hrest'⟩ := List.forall_mem_cons.1 hne
    obtain ⟨hlow, hrest''⟩ := List.forall_mem_cons.1 hlow
    exact List.forall_mem_cons.2 ⟨Monomial.number?_factors h hne hlow,
      Form.number?_terms hrest hrest' hrest''⟩

/-- The expression of a form is read as the value of the form. -/
theorem Form.number?_expression [CharZero K] : ∀ {f : Form}, f.Everywhere (R.Interprets v) →
    (f.Everywhere fun a => v a ≠ 0) → (f.Throughout fun x => -2147483648 < x.2) →
    f.expression.number? R = some (f.value v)
  | ⟨terms⟩, h, hne, hlow => by
    have hne := Form.throughout_iff.1 hne
    have hlow := Form.throughout_iff.1 hlow
    have hatoms := Form.number?_terms (Form.everywhere_iff.1 h)
      (fun t ht x hx => (hne t ht x hx).2) fun t ht x hx => (hlow t ht x hx).2
    rw [Form.expression, termExpressions_eq]
    exact number?_sumOfTerms fun t ht q => number?_fractionOf (hatoms t ht)
      (fun x hx => (hne t ht x hx).1) (fun x hx => (hlow t ht x hx).1) q

theorem Form.numbers?_expressions [CharZero K] : ∀ {fs : List Form},
    (∀ f ∈ fs, f.Everywhere (R.Interprets v)) → (∀ f ∈ fs, f.Everywhere fun a => v a ≠ 0) →
    (∀ f ∈ fs, f.Throughout fun x => -2147483648 < x.2) →
    numbers? R (Form.expressions fs) = some (fs.map (Form.value v)) ∧
      (Form.expressions fs).zip (fs.map (Form.value v)) =
        fs.map fun f => (f.expression, f.value v)
  | [], _, _, _ => by
    rw [Form.expressions, numbers?]
    exact ⟨rfl, rfl⟩
  | f :: fs, h, hne, hlow => by
    obtain ⟨h, hrest⟩ := List.forall_mem_cons.1 h
    obtain ⟨hne, hrest'⟩ := List.forall_mem_cons.1 hne
    obtain ⟨hlow, hrest''⟩ := List.forall_mem_cons.1 hlow
    obtain ⟨hnumbers, hzip⟩ := Form.numbers?_expressions hrest hrest' hrest''
    rw [Form.expressions, List.map_cons, List.map_cons, List.zip_cons_cons, hzip]
    exact ⟨numbers?_cons (Form.number?_expression h hne hlow) hnumbers, rfl⟩

end

/-! ### Principal values -/

variable (x : Nat → ℂ) (functions : Builtin → List ℂ → ℂ)

/-- Complex arithmetic with principal values of powers and roots.  Zero has powers with exponents in
the right half plane only. -/
noncomputable def Arithmetic.principal : Arithmetic ℂ where
  symbol := x
  constant
    | .pi => Real.pi
    | .e => (Real.exp 1 : ℝ)
    | .imaginaryUnit => Complex.I
  function
    | .sqrt, [y] => some (y.2 ^ (2 : ℂ)⁻¹)
    | .root, [y, n] => some (y.2 ^ n.2⁻¹)
    | g, args => some (functions g (args.map Prod.snd))
  power b k := if b.2 = 0 ∧ k.2.re ≤ 0 then none else some (b.2 ^ k.2)
  power_integer b k h := by
    rw [if_neg, Complex.cpow_intCast]
    rintro ⟨hzero, hre⟩
    have hk : 0 < k := h.resolve_right (not_not_intro hzero)
    rw [Complex.intCast_re] at hre
    exact hk.not_ge (by exact_mod_cast hre)

theorem Atom.principal_apply (g : Builtin) (args : List Form) :
    Atom.principal x functions (.apply g args) =
      functions g (args.map (Form.value (Valuation.principal x functions))) := by
  have hall : Form.principalAll x functions args =
      args.map (Form.value (Valuation.principal x functions)) := by
    induction args with
    | nil => rw [Form.principalAll]; rfl
    | cons f fs ih =>
      obtain ⟨terms⟩ := f
      rw [Form.principalAll, Form.principalTerms_eq, ih]
      rfl
  rw [Atom.principal, hall]

theorem Arithmetic.function_principal {g : Builtin} (hsqrt : g ≠ .sqrt) (hroot : g ≠ .root)
    (args : List (Expression × ℂ)) :
    (principal x functions).function g args = some (functions g (args.map Prod.snd)) := by
  cases g with
  | sqrt => exact absurd rfl hsqrt
  | root => exact absurd rfl hroot
  | _ => rfl

theorem Arithmetic.root_principal (y : Expression × ℂ) (n : Nat) :
    (principal x functions).root y n = some (y.2 ^ (n : ℂ)⁻¹) := by
  unfold root
  split
  · next hn =>
    subst hn
    rfl
  · rfl

/-- The atom is what complex arithmetic reads: roots are of numbers that are not negative, other
functions are not roots, bases of powers are not zero, and reciprocals are inverses. -/
def Atom.IsReadable (v : Atom → ℂ) : Atom → Prop
  | .root q _ => 0 ≤ q
  | .apply g _ => g ≠ .sqrt ∧ g ≠ .root
  | .power f _ => f.value v ≠ 0
  | .reciprocal f => f.value v ≠ 0
  | _ => True

/-- Principal values are what complex arithmetic reads. -/
theorem Arithmetic.interprets_principal {a : Atom}
    (h : a.IsReadable (Valuation.principal x functions)) :
    (principal x functions).Interprets (Valuation.principal x functions) a := by
  cases a with
  | symbol | pi | e | imaginaryUnit => rfl
  | root q n =>
    have hq : (0 : ℝ) ≤ q := Rat.cast_nonneg.2 h
    refine (root_principal x functions _ n).trans (congrArg some ?_)
    change ((q : ℚ) : ℂ) ^ (n : ℂ)⁻¹ = ((_ : ℝ) : ℂ)
    rw [Complex.ofReal_cpow hq]
    push_cast
    rfl
  | radical f n =>
    exact (root_principal x functions _ n).trans
      (congrArg some (Atom.principal_radical x functions f n).symm)
  | apply g args =>
    refine (function_principal x functions h.1 h.2 _).trans (congrArg some ?_)
    rw [List.map_map]
    exact (Atom.principal_apply x functions g args).symm
  | power f g =>
    have hf : f.value (Valuation.principal x functions) ≠ 0 := h
    exact (if_neg fun hzero => hf hzero.1).trans
      (congrArg some (Atom.principal_power x functions f g).symm)
  | reciprocal f =>
    have hf : f.value (Valuation.principal x functions) ≠ 0 := h
    exact Valuation.lawful_principal_reciprocal x functions hf

/-! ### Stored expressions -/

variable {x functions} {A B : Arena} {h : Handle} {f : Form}

/-- **Writing a form keeps its value**: what is stored for a form is its expression, and read as
arithmetic it has the value of the form under every valuation that the arithmetic interprets and
under which no atom of the form is zero, provided that the exponents in the form have opposites in a
word of 32 bits.  The coefficients may have any size. -/
theorem Form.number?_stored [CharZero K] (hA : A.WellFormed)
    (hsymbols : f.SymbolsIn A.Named) (hinterprets : f.Everywhere (R.Interprets v))
    (hne : f.Everywhere fun a => v a ≠ 0) (hlow : f.Throughout fun x => -2147483648 < x.2)
    (hstore : Build.store f.expression A = (.ok h, B)) :
    B.expression h = f.expression ∧ (B.expression h).number? R = some (f.value v) := by
  have hwritten := Form.expression_written hsymbols
  obtain ⟨-, -, hdenotes⟩ := Build.store_stores ⟨hA, rfl⟩ hwritten.identifiersIn
  rw [hstore] at hdenotes
  have hexpression : B.expression h = f.expression := (hdenotes h rfl).expression_eq
  rw [hexpression]
  exact ⟨rfl, Form.number?_expression hinterprets hne hlow⟩

/-- The form of `1 - 3√2 / x ^ 2`. -/
def surdOverSquare : Form := ⟨[(⟨[]⟩, 1), (⟨[(.symbol 0, -2), (.root 2 2, 1)]⟩, -3)]⟩

/-- The nodes of `-(3√2 / x ^ 2) + 1`. -/
def surdOverSquareArena : Arena :=
  .ofNodes ["x"] [.symbol 0, .integer 3, .integer 2, .apply Builtin.sqrt.code [⟨2⟩],
    .product [⟨1⟩, ⟨3⟩], .power ⟨0⟩ ⟨2⟩, .quotient ⟨4⟩ ⟨5⟩, .opposite ⟨6⟩, .integer 1,
    .sum [⟨7⟩, ⟨8⟩]] (List.nodup_singleton _)

theorem wellFormed_surdOverSquareArena : surdOverSquareArena.WellFormed :=
  .ofNodes (by decide) (by decide) (by decide)

theorem store_surdOverSquare : Build.store surdOverSquare.expression surdOverSquareArena =
    (.ok ⟨9⟩, surdOverSquareArena) := by
  have hintern : ∀ {n : Node} {h : Handle}, surdOverSquareArena.node? h = some n →
      Build.intern n surdOverSquareArena = (.ok h, surdOverSquareArena) :=
    fun hn => Build.intern_of_node? wellFormed_surdOverSquareArena hn
  have h0 := hintern (n := .symbol 0) (h := ⟨0⟩) rfl
  have h1 := hintern (n := .integer 3) (h := ⟨1⟩) rfl
  have h2 := hintern (n := .integer 2) (h := ⟨2⟩) rfl
  have h3 := hintern (n := .apply Builtin.sqrt.code [⟨2⟩]) (h := ⟨3⟩) rfl
  have h4 := hintern (n := .product [⟨1⟩, ⟨3⟩]) (h := ⟨4⟩) rfl
  have h5 := hintern (n := .power ⟨0⟩ ⟨2⟩) (h := ⟨5⟩) rfl
  have h6 := hintern (n := .quotient ⟨4⟩ ⟨5⟩) (h := ⟨6⟩) rfl
  have h7 := hintern (n := .opposite ⟨6⟩) (h := ⟨7⟩) rfl
  have h8 := hintern (n := .integer 1) (h := ⟨8⟩) rfl
  have h9 := hintern (n := .sum [⟨7⟩, ⟨8⟩]) (h := ⟨9⟩) rfl
  rw [show surdOverSquare.expression = .sum [.opposite (.quotient
    (.product [.integer 3, .apply Builtin.sqrt.code [.integer 2]])
    (.power (.symbol 0) (.integer 2))), .integer 1] by rfl]
  simp [-bind_pure_comp, Build.store, Build.storeAll, bind_run, pure_run, h0, h1, h2, h3, h4, h5,
    h6, h7, h8, h9]

/-- What holds of the two factors holds of all. -/
theorem forall_factors_surdOverSquare {P : Atom × Int → Prop} (hx : P (.symbol 0, -2))
    (hroot : P (.root 2 2, 1)) : ∀ t ∈ surdOverSquare.terms, ∀ y ∈ t.1.factors, P y :=
  List.forall_mem_cons.2 ⟨List.forall_mem_nil _, List.forall_mem_singleton.2
    (List.forall_mem_cons.2 ⟨hx, List.forall_mem_singleton.2 hroot⟩)⟩

theorem throughout_surdOverSquare {P : Atom × Int → Prop} (hx : P (.symbol 0, -2))
    (hroot : P (.root 2 2, 1)) : surdOverSquare.Throughout P :=
  Form.throughout_iff.2 (forall_factors_surdOverSquare ⟨hx, nofun⟩ ⟨hroot, nofun⟩)

/-- A sum of a constant and a negative fraction is written with its value. -/
theorem Form.number?_stored_surdOverSquare :
    let x : Nat → ℂ := fun _ => 3
    let functions : Builtin → List ℂ → ℂ := fun _ _ => 0
    let v := Valuation.principal x functions
    (surdOverSquareArena.WellFormed ∧
      surdOverSquare.SymbolsIn surdOverSquareArena.Named ∧
      surdOverSquare.Everywhere ((Arithmetic.principal x functions).Interprets v) ∧
      (surdOverSquare.Everywhere fun a => v a ≠ 0) ∧
      (surdOverSquare.Throughout fun x => -2147483648 < x.2) ∧
      Build.store surdOverSquare.expression surdOverSquareArena = (.ok ⟨9⟩, surdOverSquareArena)) ∧
    surdOverSquareArena.expression ⟨9⟩ = surdOverSquare.expression ∧
      (surdOverSquareArena.expression ⟨9⟩).number? (Arithmetic.principal x functions) =
        some (surdOverSquare.value v) := by
  intro x functions v
  have hA := wellFormed_surdOverSquareArena
  have hsymbols : surdOverSquare.SymbolsIn surdOverSquareArena.Named :=
    Form.symbolsIn_iff.2 (forall_factors_surdOverSquare
      (Atom.symbolsIn_symbol.2 ⟨by decide, by decide⟩) (Atom.symbolsIn_root 2 2))
  have hinterprets : surdOverSquare.Everywhere ((Arithmetic.principal x functions).Interprets v) :=
    throughout_surdOverSquare (Arithmetic.interprets_principal x functions trivial)
      (Arithmetic.interprets_principal x functions (by decide : (0 : Rat) ≤ 2))
  have hne : surdOverSquare.Everywhere fun a => v a ≠ 0 :=
    throughout_surdOverSquare (three_ne_zero : (3 : ℂ) ≠ 0) (v.root_ne_zero two_pos le_rfl)
  have hlow : surdOverSquare.Throughout fun x => -2147483648 < x.2 :=
    throughout_surdOverSquare (by decide) (by decide)
  exact ⟨⟨hA, hsymbols, hinterprets, hne, hlow, store_surdOverSquare⟩,
    Form.number?_stored hA hsymbols hinterprets hne hlow store_surdOverSquare⟩

end Resolvent

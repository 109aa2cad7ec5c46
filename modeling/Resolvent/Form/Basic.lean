import Resolvent.Expression.Builtin
import Resolvent.Number.Rational

/-!
# Canonical forms

A form is a finite sum of monomials with rational coefficients, a monomial a product of atoms with
whole exponents, and an atom a symbol, a constant, a root, a radical of a form, a function of forms
that stays unevaluated, a power of forms, or the reciprocal of a sum.  Terms are kept in the order
of their monomials and factors in the order of their atoms.

This module has the types and their order (`Atom.order`, `Monomial.order`, `Form.order`).
`Form.order_eq_iff` says that forms which the order does not tell apart are equal, so equality of
forms is decidable.
-/

namespace Resolvent

mutual

/-- A factor of a monomial. -/
inductive Atom where
  /-- A symbol, by its number. -/
  | symbol (id : Nat)
  /-- The circle number. -/
  | pi
  /-- Euler's number. -/
  | e
  /-- The imaginary unit. -/
  | imaginaryUnit
  /-- The positive root of a positive number. -/
  | root (radicand : Rat) (index : Nat)
  /-- The principal root of any other form. -/
  | radical (radicand : Form) (index : Nat)
  /-- A built-in function of forms. -/
  | apply (f : Builtin) (args : List Form)
  /-- A power whose exponent is no whole number that can be multiplied out. -/
  | power (base exponent : Form)
  /-- The reciprocal of a sum whose leading coefficient is one. -/
  | reciprocal (inner : Form)

/-- A product of atoms with whole exponents, in the order of the atoms. -/
structure Monomial where
  /-- The atoms with their exponents. -/
  factors : List (Atom × Int)

/-- A sum of monomials with coefficients, in the order of the monomials. -/
structure Form where
  /-- The monomials with their coefficients. -/
  terms : List (Monomial × Rat)

end

/-! ### Order -/

/-- The place of the kind of an atom among the kinds. -/
def Atom.rank : Atom → Nat
  | symbol _ => 0
  | pi => 1
  | e => 2
  | imaginaryUnit => 3
  | root _ _ => 4
  | radical _ _ => 5
  | apply _ _ => 6
  | power _ _ => 7
  | reciprocal _ => 8

mutual

/-- Atoms are ordered by kind, then by their parts in turn. -/
def Atom.order : Atom → Atom → Ordering
  | .symbol i, .symbol j => compare i j
  | .root q m, .root r n => (Rational.order q r).then (compare m n)
  | .radical f m, .radical g n => (f.order g).then (compare m n)
  | .apply f xs, .apply g ys => (compare f.code g.code).then (Form.orderAll xs ys)
  | .power a b, .power c d => (a.order c).then (b.order d)
  | .reciprocal a, .reciprocal b => a.order b
  | a, b => compare a.rank b.rank

/-- Monomials are ordered as lists of factors. -/
def Monomial.order : Monomial → Monomial → Ordering
  | ⟨xs⟩, ⟨ys⟩ => Monomial.orderFactors xs ys

/-- The lexicographic order of factors, first by atom and then by exponent. -/
def Monomial.orderFactors : List (Atom × Int) → List (Atom × Int) → Ordering
  | [], [] => .eq
  | [], _ :: _ => .lt
  | _ :: _, [] => .gt
  | (a, k) :: xs, (b, l) :: ys =>
    (a.order b).then ((compare k l).then (Monomial.orderFactors xs ys))

/-- Forms are ordered as lists of terms. -/
def Form.order : Form → Form → Ordering
  | ⟨xs⟩, ⟨ys⟩ => Form.orderTerms xs ys

/-- The lexicographic order of terms, first by monomial and then by coefficient. -/
def Form.orderTerms : List (Monomial × Rat) → List (Monomial × Rat) → Ordering
  | [], [] => .eq
  | [], _ :: _ => .lt
  | _ :: _, [] => .gt
  | (m, q) :: xs, (n, r) :: ys =>
    (m.order n).then ((Rational.order q r).then (Form.orderTerms xs ys))

/-- The lexicographic order of lists of forms. -/
def Form.orderAll : List Form → List Form → Ordering
  | [], [] => .eq
  | [], _ :: _ => .lt
  | _ :: _, [] => .gt
  | f :: fs, g :: gs => (f.order g).then (Form.orderAll fs gs)

end

theorem Rational.order_eq_iff {a b : Rat} : Rational.order a b = .eq ↔ a = b := by
  unfold Rational.order
  constructor
  · intro h
    split at h <;> simp_all
  · rintro rfl
    simp

mutual

theorem Atom.eq_of_order : ∀ a b : Atom, a.order b = .eq → a = b
  | .symbol _, b => by cases b <;> simp [Atom.order, Atom.rank]
  | .pi, b => by cases b <;> simp [Atom.order, Atom.rank]
  | .e, b => by cases b <;> simp [Atom.order, Atom.rank]
  | .imaginaryUnit, b => by cases b <;> simp [Atom.order, Atom.rank]
  | .root _ _, b => by
    cases b <;> simp [Atom.order, Atom.rank, Ordering.then_eq_eq, Rational.order_eq_iff]
  | .radical _ _, b => by
    cases b <;> simp [Atom.order, Atom.rank, Ordering.then_eq_eq]
    exact fun h h' => ⟨Form.eq_of_order _ _ h, h'⟩
  | .apply f xs, b => by
    cases b with
    | apply g ys =>
      simp only [Atom.order, Ordering.then_eq_eq, Nat.compare_eq_eq, Atom.apply.injEq]
      rintro ⟨h, h'⟩
      have hc := congrArg Builtin.ofCode? h
      exact ⟨by simpa [Builtin.ofCode?_code] using hc, Form.eq_of_orderAll _ _ h'⟩
    | _ => simp [Atom.order, Atom.rank]
  | .power _ _, b => by
    cases b <;> simp [Atom.order, Atom.rank, Ordering.then_eq_eq]
    exact fun h h' => ⟨Form.eq_of_order _ _ h, Form.eq_of_order _ _ h'⟩
  | .reciprocal _, b => by
    cases b <;> simp [Atom.order, Atom.rank]
    exact fun h => Form.eq_of_order _ _ h

theorem Monomial.eq_of_order : ∀ m n : Monomial, m.order n = .eq → m = n
  | ⟨xs⟩, ⟨ys⟩ => by
    simp only [Monomial.order, Monomial.mk.injEq]
    exact Monomial.eq_of_orderFactors xs ys

theorem Monomial.eq_of_orderFactors :
    ∀ xs ys : List (Atom × Int), Monomial.orderFactors xs ys = .eq → xs = ys
  | [], [] => by simp
  | [], _ :: _ => by simp [Monomial.orderFactors]
  | _ :: _, [] => by simp [Monomial.orderFactors]
  | (a, k) :: xs, (b, l) :: ys => by
    simp only [Monomial.orderFactors, Ordering.then_eq_eq, List.cons.injEq, Prod.mk.injEq]
    rintro ⟨h, h', h''⟩
    exact ⟨⟨Atom.eq_of_order _ _ h, by simpa using h'⟩, Monomial.eq_of_orderFactors _ _ h''⟩

theorem Form.eq_of_order : ∀ f g : Form, f.order g = .eq → f = g
  | ⟨xs⟩, ⟨ys⟩ => by
    simp only [Form.order, Form.mk.injEq]
    exact Form.eq_of_orderTerms xs ys

theorem Form.eq_of_orderTerms :
    ∀ xs ys : List (Monomial × Rat), Form.orderTerms xs ys = .eq → xs = ys
  | [], [] => by simp
  | [], _ :: _ => by simp [Form.orderTerms]
  | _ :: _, [] => by simp [Form.orderTerms]
  | (m, q) :: xs, (n, r) :: ys => by
    simp only [Form.orderTerms, Ordering.then_eq_eq, List.cons.injEq, Prod.mk.injEq]
    rintro ⟨h, h', h''⟩
    exact ⟨⟨Monomial.eq_of_order _ _ h, Rational.order_eq_iff.1 h'⟩,
      Form.eq_of_orderTerms _ _ h''⟩

theorem Form.eq_of_orderAll : ∀ fs gs : List Form, Form.orderAll fs gs = .eq → fs = gs
  | [], [] => by simp
  | [], _ :: _ => by simp [Form.orderAll]
  | _ :: _, [] => by simp [Form.orderAll]
  | f :: fs, g :: gs => by
    simp only [Form.orderAll, Ordering.then_eq_eq, List.cons.injEq]
    rintro ⟨h, h'⟩
    exact ⟨Form.eq_of_order _ _ h, Form.eq_of_orderAll _ _ h'⟩

end

mutual

theorem Atom.order_self : ∀ a : Atom, a.order a = .eq
  | .symbol _ => by simp [Atom.order]
  | .pi => by simp [Atom.order]
  | .e => by simp [Atom.order]
  | .imaginaryUnit => by simp [Atom.order]
  | .root _ _ => by simp [Atom.order, Rational.order_eq_iff]
  | .radical f _ => by simp [Atom.order, Form.order_self f]
  | .apply _ xs => by simp [Atom.order, Form.orderAll_self xs]
  | .power a b => by simp [Atom.order, Form.order_self a, Form.order_self b]
  | .reciprocal a => by simp [Atom.order, Form.order_self a]

theorem Monomial.order_self : ∀ m : Monomial, m.order m = .eq
  | ⟨xs⟩ => by
    simp only [Monomial.order]
    exact Monomial.orderFactors_self xs

theorem Monomial.orderFactors_self : ∀ xs : List (Atom × Int), Monomial.orderFactors xs xs = .eq
  | [] => by simp [Monomial.orderFactors]
  | (a, _) :: xs => by
    simp [Monomial.orderFactors, Atom.order_self a,
      Monomial.orderFactors_self xs]

theorem Form.order_self : ∀ f : Form, f.order f = .eq
  | ⟨xs⟩ => by
    simp only [Form.order]
    exact Form.orderTerms_self xs

theorem Form.orderTerms_self : ∀ xs : List (Monomial × Rat), Form.orderTerms xs xs = .eq
  | [] => by simp [Form.orderTerms]
  | (m, _) :: xs => by
    simp [Form.orderTerms, Monomial.order_self m, Rational.order_eq_iff,
      Form.orderTerms_self xs]

theorem Form.orderAll_self : ∀ fs : List Form, Form.orderAll fs fs = .eq
  | [] => by simp [Form.orderAll]
  | f :: fs => by simp [Form.orderAll, Form.order_self f,
      Form.orderAll_self fs]

end

theorem Atom.order_eq_iff {a b : Atom} : a.order b = .eq ↔ a = b :=
  ⟨Atom.eq_of_order a b, fun h => h ▸ Atom.order_self a⟩

theorem Monomial.order_eq_iff {m n : Monomial} : m.order n = .eq ↔ m = n :=
  ⟨Monomial.eq_of_order m n, fun h => h ▸ Monomial.order_self m⟩

theorem Form.order_eq_iff {f g : Form} : f.order g = .eq ↔ f = g :=
  ⟨Form.eq_of_order f g, fun h => h ▸ Form.order_self f⟩

instance : DecidableEq Atom := fun _ _ => decidable_of_iff _ Atom.order_eq_iff

instance : DecidableEq Monomial := fun _ _ => decidable_of_iff _ Monomial.order_eq_iff

instance : DecidableEq Form := fun _ _ => decidable_of_iff _ Form.order_eq_iff

end Resolvent

import Resolvent.Expression.Storage

/-!
# Identifiers of expressions

The identifiers of an expression are the numbers of its symbols and of the user functions that it
calls, at any depth and in order.  `Expression.IdentifiersIn S` says that all of them are in the
class `S`.
-/

namespace Resolvent.Expression

mutual

/-- The numbers of the symbols and user functions of an expression, in order. -/
def identifiers : Expression → List Nat
  | symbol id => [id]
  | sum args | product args | apply _ args | matrix _ _ args => identifiersOf args
  | power a b | quotient a b => identifiers a ++ identifiers b
  | opposite a => identifiers a
  | call name a => name :: identifiers a
  | integer _ | fraction _ | float _ | constant _ | undefined | unreal => []

/-- The identifiers of the members of a list. -/
def identifiersOf : List Expression → List Nat
  | [] => []
  | e :: es => identifiers e ++ identifiersOf es

end

attribute [local simp] identifiers identifiersOf

theorem mem_identifiersOf {id : Nat} {es : List Expression} :
    id ∈ identifiersOf es ↔ ∃ e ∈ es, id ∈ e.identifiers := by
  induction es with
  | nil => simp
  | cons e es ih => simp only [identifiersOf, List.mem_append, ih, List.mem_cons, exists_eq_or_imp]

/-- All identifiers of the expression are in a class. -/
def IdentifiersIn (S : Nat → Prop) (e : Expression) : Prop := ∀ id ∈ e.identifiers, S id

variable {S : Nat → Prop} {e a b : Expression} {es : List Expression}

/-! ### Parts -/

theorem identifiersIn_of_identifiersOf
    (h : e.identifiers = identifiersOf es) : e.IdentifiersIn S ↔ ∀ x ∈ es, x.IdentifiersIn S := by
  simp only [IdentifiersIn, h, mem_identifiersOf, forall_exists_index, and_imp]
  exact ⟨fun h x hx id => h id x hx, fun h id x hx => h x hx id⟩

theorem identifiersIn_sum : (sum es).IdentifiersIn S ↔ ∀ x ∈ es, x.IdentifiersIn S :=
  identifiersIn_of_identifiersOf (by simp)

theorem identifiersIn_product : (product es).IdentifiersIn S ↔ ∀ x ∈ es, x.IdentifiersIn S :=
  identifiersIn_of_identifiersOf (by simp)

theorem identifiersIn_apply {code : Nat} :
    (apply code es).IdentifiersIn S ↔ ∀ x ∈ es, x.IdentifiersIn S :=
  identifiersIn_of_identifiersOf (by simp)

theorem identifiersIn_matrix {r c : Nat} :
    (matrix r c es).IdentifiersIn S ↔ ∀ x ∈ es, x.IdentifiersIn S :=
  identifiersIn_of_identifiersOf (by simp)

theorem identifiersIn_power :
    (power a b).IdentifiersIn S ↔ a.IdentifiersIn S ∧ b.IdentifiersIn S := by
  simp only [IdentifiersIn, identifiers, List.mem_append, or_imp, forall_and]

theorem identifiersIn_quotient :
    (quotient a b).IdentifiersIn S ↔ a.IdentifiersIn S ∧ b.IdentifiersIn S := by
  simp only [IdentifiersIn, identifiers, List.mem_append, or_imp, forall_and]

theorem identifiersIn_opposite : (opposite a).IdentifiersIn S ↔ a.IdentifiersIn S := by
  simp only [IdentifiersIn, identifiers]

theorem identifiersIn_call {name : Nat} :
    (call name a).IdentifiersIn S ↔ S name ∧ a.IdentifiersIn S := by
  simp only [IdentifiersIn, identifiers, List.forall_mem_cons]

theorem identifiersIn_symbol {id : Nat} : (symbol id).IdentifiersIn S ↔ S id := by
  simp only [IdentifiersIn, identifiers, List.forall_mem_singleton]

/-- An expression without identifiers. -/
theorem identifiersIn_of_eq_nil (h : e.identifiers = []) : e.IdentifiersIn S := by
  rw [IdentifiersIn, h]
  exact List.forall_mem_nil _

theorem identifiersIn_ite {c : Prop} [Decidable c] (ha : a.IdentifiersIn S)
    (hb : b.IdentifiersIn S) : (if c then a else b).IdentifiersIn S := by
  split
  · exact ha
  · exact hb

/-! ### Expressions that are made to be stored -/

theorem identifiersIn_ofRat (q : Rat) : (ofRat q).IdentifiersIn S := by
  unfold ofRat
  split
  all_goals exact identifiersIn_of_eq_nil (by simp)

theorem identifiersIn_sumOf (h : ∀ x ∈ es, x.IdentifiersIn S) : (sumOf es).IdentifiersIn S := by
  unfold sumOf
  split
  · exact identifiersIn_of_eq_nil (by simp)
  · exact h _ List.mem_cons_self
  · exact identifiersIn_sum.2 h

theorem identifiersIn_productOf (h : ∀ x ∈ es, x.IdentifiersIn S) :
    (productOf es).IdentifiersIn S := by
  unfold productOf
  split
  · exact identifiersIn_of_eq_nil (by simp)
  · exact h _ List.mem_cons_self
  · exact identifiersIn_product.2 h

theorem identifiersIn_rootOf (h : e.IdentifiersIn S) (n : Nat) : (e.rootOf n).IdentifiersIn S := by
  unfold rootOf
  split
  · exact identifiersIn_apply.2 (by simpa using h)
  · refine identifiersIn_apply.2 fun x hx => ?_
    rcases List.mem_cons.1 hx with rfl | hx
    · exact h
    · rw [List.mem_singleton.1 hx]
      exact identifiersIn_of_eq_nil (by simp)

end Resolvent.Expression

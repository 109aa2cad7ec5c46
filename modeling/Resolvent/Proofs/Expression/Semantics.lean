import Resolvent.Expression.Printer
import Mathlib.Algebra.CharZero.Defs
import Mathlib.Data.Rat.Cast.CharZero
import Mathlib.Tactic.Ring

/-!
# What expressions mean

A `Semantics` says what numbers, names and operations mean, in any domain in which sums and products
associate and signs pass through products and quotients.  Everything may be undefined somewhere: a
symbol without a value, a quotient by zero, the sum of a number and a matrix.  It gives each
expression a value, if it has one (`Expression.value`).

The intended meanings have numbers of a field and matrices of such values (`Semantics.ofField`).
-/

namespace Resolvent

/-- What the signs of expressions mean. -/
structure Semantics (V : Type) where
  /-- The value of a number. -/
  number : Rat → V
  /-- The value of a constant. -/
  constant : Constant → V
  /-- The value of a symbol, by its name. -/
  symbol : String → Option V
  /-- The value of a built-in function. -/
  function : Builtin → List V → Option V
  /-- The value of a user function, by its name. -/
  call : String → V → Option V
  /-- The matrix with the rows. -/
  table : List (List V) → Option V
  /-- The opposite. -/
  neg : V → Option V
  /-- The sum. -/
  add : V → V → Option V
  /-- The product. -/
  mul : V → V → Option V
  /-- The quotient. -/
  div : V → V → Option V
  /-- The power. -/
  power : V → V → Option V
  neg_number : ∀ q, neg (number q) = some (number (-q))
  div_number : ∀ p {q}, q ≠ 0 → div (number p) (number q) = some (number (p / q))
  neg_neg : ∀ {a b}, neg a = some b → neg b = some a
  add_assoc : ∀ {a b c t s}, add b c = some t → add a t = some s →
    ∃ r, add a b = some r ∧ add r c = some s
  mul_assoc : ∀ {a b c t s}, mul b c = some t → mul a t = some s →
    ∃ r, mul a b = some r ∧ mul r c = some s
  neg_mul : ∀ {a b t s}, mul a b = some t → neg t = some s → ∃ r, neg a = some r ∧ mul r b = some s
  neg_div : ∀ {a b t s}, div a b = some t → neg t = some s → ∃ r, neg a = some r ∧ div r b = some s

namespace Expression

variable {V : Type} (I : Semantics V) (name : Nat → String)

/-- The members of a list combined from the left; of an empty one nothing comes, but no sum or
product that is stored is empty. -/
def accumulate (op : V → V → Option V) : List V → Option V
  | [] => none
  | v :: vs => vs.foldlM op v

/-- The number of entries in a row. -/
def rowWidth (columns : Nat) : Nat := if columns = 0 then 1 else columns

mutual

/-- The value of an expression, given the names of the symbols.  Doubles stand for the number that
their shortest digits denote. -/
def value : Expression → Option V
  | integer n => some (I.number n)
  | fraction q => some (I.number q)
  | float bits => (Double.shortestRational? (Float.ofBits bits)).map I.number
  | symbol id => I.symbol (name id)
  | constant c => some (I.constant c)
  | undefined | unreal => none
  | sum args => (values args).bind (accumulate I.add)
  | product args => (values args).bind (accumulate I.mul)
  | power base exponent => (value base).bind fun b => (value exponent).bind (I.power b)
  | opposite arg => (value arg).bind I.neg
  | quotient numerator denominator =>
    (value numerator).bind fun n => (value denominator).bind (I.div n)
  | apply code args => (Builtin.ofCode? code).bind fun f => (values args).bind (I.function f)
  | call id arg => (value arg).bind (I.call (name id))
  | matrix _ columns entries =>
    (values entries).bind fun vs => I.table (pieces (rowWidth columns) vs.length vs)

/-- The values of the members of a list, if all have one. -/
def values : List Expression → Option (List V)
  | [] => some []
  | e :: es => (value e).bind fun v => (values es).map (v :: ·)

end

variable {I name}

theorem values_cons_eq_some {e : Expression} {es : List Expression} {vs : List V} :
    values I name (e :: es) = some vs ↔
      ∃ w ws, value I name e = some w ∧ values I name es = some ws ∧ vs = w :: ws := by
  simp only [values, Option.bind_eq_some_iff, Option.map_eq_some_iff]
  constructor
  · rintro ⟨w, hw, ws, hws, rfl⟩
    exact ⟨w, ws, hw, hws, rfl⟩
  · rintro ⟨w, ws, hw, hws, rfl⟩
    exact ⟨w, hw, ws, hws, rfl⟩

/-- What holds of atoms, and of an expression if it holds of its operands, holds of all. -/
theorem induction {P : Expression → Prop} (atom : ∀ e : Expression, e.isAtom = true → P e)
    (sum : ∀ args, (∀ a ∈ args, P a) → P (sum args))
    (product : ∀ args, (∀ a ∈ args, P a) → P (product args))
    (power : ∀ base exponent, P base → P exponent → P (power base exponent))
    (opposite : ∀ arg, P arg → P (opposite arg))
    (quotient : ∀ numerator denominator, P numerator → P denominator →
      P (quotient numerator denominator))
    (apply : ∀ code args, (∀ a ∈ args, P a) → P (apply code args))
    (call : ∀ id arg, P arg → P (call id arg))
    (matrix : ∀ rows columns entries, (∀ a ∈ entries, P a) → P (matrix rows columns entries))
    (e : Expression) : P e :=
  @Expression.rec P (fun es => ∀ a ∈ es, P a)
    (fun _ => atom _ rfl) (fun _ => atom _ rfl) (fun _ => atom _ rfl) (fun _ => atom _ rfl)
    (fun _ => atom _ rfl) (atom _ rfl) (atom _ rfl) sum product power opposite quotient apply call
    matrix nofun (fun _ _ he hes => List.forall_mem_cons.2 ⟨he, hes⟩) e

end Expression

/-! ### Fields -/

/-- A number, or a matrix of such values. -/
inductive FieldValue (K : Type) where
  /-- A number. -/
  | scalar (x : K)
  /-- A matrix, by its rows. -/
  | table (rows : List (List (FieldValue K)))

namespace FieldValue

variable {K : Type}

/-- An operation on numbers; matrices have none. -/
def lift (op : K → K → Option K) : FieldValue K → FieldValue K → Option (FieldValue K)
  | scalar x, scalar y => (op x y).map scalar
  | _, _ => none

theorem lift_eq_some {op : K → K → Option K} {a b c : FieldValue K} : lift op a b = some c ↔
    ∃ x y z, a = scalar x ∧ b = scalar y ∧ op x y = some z ∧ c = scalar z := by
  constructor
  · intro h
    cases a with
    | scalar x =>
      cases b with
      | scalar y =>
        obtain ⟨z, hz, rfl⟩ := Option.map_eq_some_iff.1 h
        exact ⟨x, y, z, rfl, rfl, hz, rfl⟩
      | table rows => cases h
    | table rows => cases h
  · rintro ⟨x, y, z, rfl, rfl, hz, rfl⟩
    exact Option.map_eq_some_iff.2 ⟨z, hz, rfl⟩

/-- The opposite of a number. -/
def opposite [Neg K] : FieldValue K → Option (FieldValue K)
  | scalar x => some (scalar (-x))
  | table _ => none

theorem opposite_eq_some [Neg K] {a b : FieldValue K} :
    a.opposite = some b ↔ ∃ x, a = scalar x ∧ b = scalar (-x) := by
  cases a with
  | scalar x => simp [opposite, eq_comm]
  | table rows => simp [opposite]

theorem lift_assoc {op : K → K → K} (h : ∀ x y z, op (op x y) z = op x (op y z))
    {a b c t s : FieldValue K} (ht : lift (fun x y => some (op x y)) b c = some t)
    (hs : lift (fun x y => some (op x y)) a t = some s) :
    ∃ r, lift (fun x y => some (op x y)) a b = some r ∧
      lift (fun x y => some (op x y)) r c = some s := by
  obtain ⟨y, z, t, rfl, rfl, ht, rfl⟩ := lift_eq_some.1 ht
  obtain ⟨x, _, s, rfl, heq, hs, rfl⟩ := lift_eq_some.1 hs
  cases ht
  cases hs
  cases heq
  exact ⟨scalar (op x y), rfl, lift_eq_some.2 ⟨_, _, _, rfl, rfl, rfl, by rw [h]⟩⟩

theorem lift_neg [Neg K] {op : K → K → Option K}
    (h : ∀ {x y z}, op x y = some z → op (-x) y = some (-z)) {a b t s : FieldValue K}
    (ht : lift op a b = some t) (hs : t.opposite = some s) :
    ∃ r, a.opposite = some r ∧ lift op r b = some s := by
  obtain ⟨x, y, z, rfl, rfl, hz, rfl⟩ := lift_eq_some.1 ht
  obtain ⟨_, heq, rfl⟩ := opposite_eq_some.1 hs
  cases heq
  exact ⟨scalar (-x), rfl, lift_eq_some.2 ⟨_, _, _, rfl, rfl, h hz, rfl⟩⟩

end FieldValue

open FieldValue in
/-- The arithmetic of a field, with matrices that have none.  What names, functions and powers
mean is open. -/
def Semantics.ofField (K : Type) [Field K] [CharZero K] [DecidableEq K] (constant : Constant → K)
    (symbol : String → Option K)
    (function : Builtin → List (FieldValue K) → Option (FieldValue K))
    (call : String → FieldValue K → Option (FieldValue K)) (power : K → K → Option K) :
    Semantics (FieldValue K) where
  number q := scalar q
  constant c := scalar (constant c)
  symbol s := (symbol s).map scalar
  function := function
  call := call
  table rows := some (.table rows)
  neg := opposite
  add := lift fun x y => some (x + y)
  mul := lift fun x y => some (x * y)
  div := lift fun x y => if y = 0 then none else some (x / y)
  power := lift power
  neg_number q := by simp [opposite]
  div_number p q hq := by
    rw [lift_eq_some]
    exact ⟨p, q, p / q, rfl, rfl, by rw [if_neg (Rat.cast_ne_zero.2 hq)], by push_cast; rfl⟩
  neg_neg h := by
    obtain ⟨x, rfl, rfl⟩ := opposite_eq_some.1 h
    simp [opposite]
  add_assoc := lift_assoc fun x y z => by ring
  mul_assoc := lift_assoc fun x y z => by ring
  neg_mul := lift_neg fun h => by
    cases h
    simp
  neg_div := lift_neg fun {x y z} h => by
    split at h
    · cases h
    · next hy =>
      cases h
      rw [if_neg hy]
      congr 1
      ring

end Resolvent

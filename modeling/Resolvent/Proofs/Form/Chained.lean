import Resolvent.Form.OfExpression
import Resolvent.Proofs.Form.Laws
import Resolvent.Proofs.Term.Lowering
import Resolvent.Proofs.Term.Placeholders

/-!
# Forms of terms

An expanded expression has the form, or the error, of the expression that its term means
(`Expression.form_chained`): adding to zero and multiplying with one change no sum and no product, so
that it makes no difference whether the operands of a sum or product are taken all at once or one
after the other.

So storing the term of an expression over its placeholders gives an expression of the same form, as
long as the arena is not full (`Arena.build_term`).
-/

namespace Resolvent

namespace Expression

variable {p : Preferences} {names : Symbols}

theorem form_sum (es : List Expression) :
    (sum es).form p = (forms p es).map fun fs => fs.foldl Form.add Form.zero := by
  rw [form]

theorem form_product (es : List Expression) :
    (product es).form p = (forms p es).map fun fs => fs.foldl Form.mul Form.one := by
  rw [form]

/-- Equal forms one by one make equal lists of forms. -/
theorem forms_map_congr {f : Expression → Expression} {es : List Expression}
    (h : ∀ e ∈ es, (f e).form p = e.form p) : forms p (es.map f) = forms p es := by
  induction es with
  | nil => rfl
  | cons e es ih =>
    obtain ⟨he, hes⟩ := List.forall_mem_cons.1 h
    rw [List.map_cons, forms, forms, he, ih hes]

theorem forms_cons_of_ok {e : Expression} {f : Form} (he : e.form p = .ok f) (es : List Expression) :
    forms p (e :: es) = (forms p es).map (f :: ·) := by
  rw [forms, he]
  rfl

theorem forms_cons_of_error {e : Expression} {x : CanonicalError} (he : e.form p = .error x)
    (es : List Expression) : forms p (e :: es) = .error x := by
  rw [forms, he]
  rfl

/-! ### Chains -/

section Chain

variable {node : List Expression → Expression} {op : Form → Form → Form} {unit : Form}
  (hnode : ∀ es, (node es).form p = (forms p es).map fun fs => fs.foldl op unit)

include hnode

theorem form_node_of_error {e : Expression} {x : CanonicalError} (he : e.form p = .error x)
    (es : List Expression) : (node (e :: es)).form p = .error x := by
  rw [hnode, forms_cons_of_error he]
  rfl

theorem form_node_of_ok {e : Expression} {f : Form} (he : e.form p = .ok f) (es : List Expression) :
    (node (e :: es)).form p = (forms p es).map fun fs => fs.foldl op (op unit f) := by
  rw [hnode, forms_cons_of_ok he]
  cases forms p es <;> rfl

theorem form_pair_of_error {a b : Expression} {f : Form} {x : CanonicalError}
    (ha : a.form p = .ok f) (hb : b.form p = .error x) : (node [a, b]).form p = .error x := by
  rw [form_node_of_ok hnode ha, forms_cons_of_error hb]
  rfl

theorem form_pair_of_ok {a b : Expression} {f g : Form} (ha : a.form p = .ok f)
    (hb : b.form p = .ok g) : (node [a, b]).form p = .ok (op (op unit f) g) := by
  rw [form_node_of_ok hnode ha, forms_cons_of_ok hb]
  rfl

/-- The first error in a chain is that of the chain. -/
theorem form_foldl_of_error (es : List Expression) {e : Expression} {x : CanonicalError}
    (he : e.form p = .error x) : (es.foldl (fun a b => node [a, b]) e).form p = .error x := by
  induction es generalizing e with
  | nil => exact he
  | cons b es ih => exact ih (form_node_of_error hnode he [b])

/-- A chain goes on from what has been computed, if the unit changes nothing about that. -/
theorem form_foldl_of_ok (hop : ∀ f g, op unit (op f g) = op f g) (es : List Expression)
    {e : Expression} {f : Form} (he : e.form p = .ok f) (hf : op unit f = f) :
    (es.foldl (fun a b => node [a, b]) e).form p = (forms p es).map fun fs => fs.foldl op f := by
  induction es generalizing e f with
  | nil => exact he
  | cons b es ih =>
    rw [List.foldl_cons]
    rcases hb : b.form p with x | g
    · rw [form_foldl_of_error hnode es (form_pair_of_error hnode he hb), forms_cons_of_error hb]
      rfl
    · have hpair := form_pair_of_ok hnode he hb
      rw [hf] at hpair
      rw [ih hpair (hop f g), forms_cons_of_ok hb]
      cases forms p es <;> rfl

/-- A chain of at least two operands has the form that these have together. -/
theorem form_chain (hop : ∀ f g, op unit (op f g) = op f g) {es : List Expression}
    (hlength : 2 ≤ es.length) :
    (chain (fun a b => node [a, b]) es).form p = (node es).form p := by
  match es, hlength with
  | a :: b :: es, _ =>
    rw [chain, List.foldl_cons]
    rcases ha : a.form p with x | f
    · rw [form_foldl_of_error hnode es (form_node_of_error hnode ha [b]),
        form_node_of_error hnode ha]
    rcases hb : b.form p with x | g
    · rw [form_foldl_of_error hnode es (form_pair_of_error hnode ha hb), form_node_of_ok hnode ha,
        forms_cons_of_error hb]
      rfl
    · rw [form_foldl_of_ok hnode hop es (form_pair_of_ok hnode ha hb) (hop _ g),
        form_node_of_ok hnode ha, forms_cons_of_ok hb]
      cases forms p es <;> rfl

end Chain

/-! ### Expressions -/

theorem form_chain_sum {es : List Expression} (hlength : 2 ≤ es.length) :
    (chain (fun a b => sum [a, b]) es).form p = (sum es).form p :=
  form_chain form_sum (fun _ _ => Form.zero_add _) hlength

theorem form_chain_product {es : List Expression} (hlength : 2 ≤ es.length) :
    (chain (fun a b => product [a, b]) es).form p = (product es).form p :=
  form_chain form_product
    (fun f g => (Form.mul_eq_mul _ _).trans (Form.Ordered.mul f g).mul_one) hlength

theorem isE_chain {node : List Expression → Expression} (hnode : ∀ es, (node es).isE = false)
    {es : List Expression} (hlength : 2 ≤ es.length) :
    (chain (fun a b => node [a, b]) es).isE = false := by
  have hfold : ∀ (es : List Expression) {e : Expression}, e.isE = false →
      (es.foldl (fun a b => node [a, b]) e).isE = false := by
    intro es
    induction es with
    | nil => exact id
    | cons b es ih => exact fun _ => ih (hnode _)
  match es, hlength with
  | a :: b :: es, _ => exact hfold es (hnode [a, b])

/-- Only the term of Euler's number means Euler's number. -/
theorem isE_chained {e : Expression} (he : e.Raisable names) : e.chained.isE = e.isE := by
  cases e with
  | sum es =>
    have hlength := he.expanded.several es (.inl .self)
    rw [chained, chainedAll_eq_map]
    exact isE_chain (fun _ => rfl) (by rwa [List.length_map])
  | product es =>
    have hlength := he.expanded.several es (.inr .self)
    rw [chained, chainedAll_eq_map]
    exact isE_chain (fun _ => rfl) (by rwa [List.length_map])
  | apply code es =>
    rw [chained]
    split <;> rfl
  | _ => rfl

/-- A power of Euler's number and the exponential function have the same form. -/
theorem form_power_e (a : Expression) :
    (power (constant .e) a).form p = (a.form p).map Form.exponential := by
  rw [form]
  cases a.form p <;> rfl

theorem form_exp (a : Expression) :
    (apply Builtin.exp.code [a]).form p = (a.form p).map Form.exponential := by
  rw [form]
  rcases ha : a.form p with x | f
  · rw [forms_cons_of_error ha]
    rfl
  · rw [forms_cons_of_ok ha]
    rfl

/-- An expanded expression has the form of the expression that its term means. -/
theorem form_chained {e : Expression} (he : e.Raisable names) (p : Preferences) :
    e.chained.form p = e.form p := by
  induction e using induction_on_operands with
  | h e ih =>
    replace ih : ∀ c ∈ e.operands, c.chained.form p = c.form p := fun c hc => ih c hc (he.operand hc)
    cases e with
    | sum es =>
      have hlength := he.expanded.several es (.inl .self)
      have hforms : forms p (es.map chained) = forms p es := forms_map_congr ih
      rw [chained, chainedAll_eq_map, form_chain_sum (by rwa [List.length_map]), form_sum, form_sum,
        hforms]
    | product es =>
      have hlength := he.expanded.several es (.inr .self)
      have hforms : forms p (es.map chained) = forms p es := forms_map_congr ih
      rw [chained, chainedAll_eq_map, form_chain_product (by rwa [List.length_map]), form_product,
        form_product, hforms]
    | opposite a => rw [chained, form, form, ih a List.mem_cons_self]
    | quotient a b => rw [chained, form, form, ih a (by simp [operands]), ih b (by simp [operands])]
    | power a b =>
      have hbase : a ∈ (power a b).operands := by simp [operands]
      rw [chained, form, form, ih a hbase, ih b (by simp [operands]), isE_chained (he.operand hbase)]
    | apply code es =>
      rcases hcode : Builtin.ofCode? code with - | f
      · rw [chained_apply_of_ofCode? hcode]
      obtain rfl := Builtin.code_of_ofCode? hcode
      by_cases hf : f = .exp
      · subst hf
        have harity := he.arity _ es .self (by simp [hcode])
        obtain ⟨a, rfl⟩ := List.length_eq_one_iff.1 harity
        have hchained : (apply Builtin.exp.code [a]).chained = power (constant .e) a.chained := rfl
        rw [hchained, form_power_e, form_exp, ih a List.mem_cons_self]
      · have hforms : forms p (es.map chained) = forms p es := forms_map_congr ih
        rw [chained_apply hf, form, form, hforms]
    | _ => rfl

end Expression

/-- **Storing the term of an expanded expression**, over the expressions that its placeholders stand
for, succeeds unless the arena is full, and what is stored has the same form as the expression, or
the same error, for all preferences. -/
theorem Arena.build_term {A : Arena} (hA : A.WellFormed) {h : Handle} (hh : Stored h A)
    (he : (A.expression h).Raisable A.symbols) :
    let raise := (A.term h).1.build (A.term h).2
    (∃ B, raise A = (.error (.exhausted ⟨B.limit⟩), B) ∧ B.IsFull) ∨
      ∃ k B, raise A = (.ok k, B) ∧ A.GrowsTo B ∧ Stored k B ∧
        ∀ p, (B.expression k).form p = (A.expression h).form p := by
  obtain ⟨es, hmeans, hlast⟩ := means_term hA hh he
  have hplaceholders : DenotesAll ((A.term h).2.map A.expression) (A.term h).2 A :=
    hA.denotesAll fun c hc => contains_of_mem_term hA hh hc
  obtain ⟨⟨hgrows, -, hresult⟩, hstops⟩ := hmeans.build hlast ⟨hA, rfl⟩ hplaceholders
  dsimp only
  rcases hrun : (A.term h).1.build (A.term h).2 A with ⟨x | k, B⟩ <;>
    rw [hrun] at hgrows hresult hstops
  · obtain ⟨hx, hfull⟩ := hstops x rfl
    exact .inl ⟨B, by rw [hx], hfull⟩
  · have hk : Denotes (A.expression h).chained k B := hresult k rfl
    refine .inr ⟨k, B, rfl, hgrows, contains_of_read? hk, fun p => ?_⟩
    rw [hk.expression_eq, Expression.form_chained he]

/-! ### A sum of three terms -/

/-- The nodes of `t + ℯ^t + √t`. -/
def threeTermsArena : Arena := .ofNodes ["t"] [.symbol 0, .constant .e, .power ⟨1⟩ ⟨0⟩,
  .apply Builtin.sqrt.code [⟨0⟩], .sum [⟨0⟩, ⟨2⟩, ⟨3⟩]]

theorem wellFormed_threeTermsArena : threeTermsArena.WellFormed :=
  .ofNodes (by decide) (by decide) (by decide)

theorem raisable_threeTerms :
    (threeTermsArena.expression ⟨4⟩).Raisable threeTermsArena.symbols := by
  have hexpression : threeTermsArena.expression ⟨4⟩ = .sum [.symbol 0,
      .power (.constant .e) (.symbol 0), .apply Builtin.sqrt.code [.symbol 0]] := by rfl
  have ht : (Expression.symbol 0).Raisable threeTermsArena.symbols :=
    Expression.raisable_symbol (show threeTermsArena.symbols.name? 0 = some "t" from rfl) fun _ => rfl
  have he : (Expression.constant .e).Raisable threeTermsArena.symbols :=
    Expression.raisable_of_operands rfl (by simp [Expression.operands]) (by simp) (by simp)
  rw [hexpression]
  refine Expression.raisable_of_operands rfl ?_ (by simp) (by simp)
  simp only [Expression.operands, List.forall_mem_cons, List.not_mem_nil, false_implies,
    implies_true, and_true]
  refine ⟨ht, ?_, ?_⟩
  · refine Expression.raisable_of_operands rfl ?_ (by simp) (by simp)
    simp [Expression.operands, ht, he]
  · refine Expression.raisable_of_operands rfl ?_ (by simp) ?_
    · simp [Expression.operands, ht]
    · simp [Builtin.arityOfCode, Builtin.code]

/-- The term of `t + ℯ^t + √t` is stored as an expression of the same form. -/
theorem Arena.build_term_threeTerms :
    (threeTermsArena.WellFormed ∧ Stored ⟨4⟩ threeTermsArena ∧
      (threeTermsArena.expression ⟨4⟩).Raisable threeTermsArena.symbols) ∧
    let raise := (threeTermsArena.term ⟨4⟩).1.build (threeTermsArena.term ⟨4⟩).2
    (∃ B, raise threeTermsArena = (.error (.exhausted ⟨B.limit⟩), B) ∧ B.IsFull) ∨
      ∃ k B, raise threeTermsArena = (.ok k, B) ∧ threeTermsArena.GrowsTo B ∧ Stored k B ∧
        ∀ p, (B.expression k).form p = (threeTermsArena.expression ⟨4⟩).form p :=
  have hstored : Stored ⟨4⟩ threeTermsArena := by rfl
  ⟨⟨wellFormed_threeTermsArena, hstored, raisable_threeTerms⟩,
    build_term wellFormed_threeTermsArena hstored raisable_threeTerms⟩

end Resolvent

import Mathlib.Data.Set.Insert
import Mathlib.Logic.Relation
import Resolvent.Proofs.Expression.Encounters

/-!
# Unfolded expressions and circular definitions

What an expression unfolds to has no calls, no matrices and no symbol that the mode replaces
(`Expression.Unfolded`, `Expression.unfolded_of_unfold`).

Unfolding an expression needs the values of its symbols and the bodies of the functions that it
calls, and these may need others (`Expression.Needs`).  A parameter in scope hides a variable of its
name, so that which definitions are needed depends on the parameters in scope, and a definition is
circular if it needs itself with the same parameters in scope.  An expression that leads to one
cannot be unfolded (`Expression.unfold_ne_ok_of_meetsCircle`), because what it needs is nested deeper
than any bound.
-/

namespace Resolvent.Expression

variable {Δ : Definitions} {mode : Mode}

/-! ### Unfolded expressions -/

/-- Expressions without calls and matrices, with several members in each sum and product, and with
symbols of a class. -/
structure Unfolded (S : Nat → Prop) (e : Expression) : Prop where
  symbols : ∀ id, (symbol id).Within e → S id
  noCall : ∀ name a, ¬(call name a).Within e
  noMatrix : ∀ rows columns es, ¬(matrix rows columns es).Within e
  several : ∀ es, (sum es).Within e ∨ (product es).Within e → 2 ≤ es.length

/-- The symbols that the mode leaves as they are. -/
def Kept (Δ : Definitions) (mode : Mode) (id : Nat) : Prop :=
  mode = .replaceAll → Δ.value? id = none

section

variable {S : Nat → Prop} {e : Expression}

theorem Unfolded.of_within {x : Expression} (h : e.Unfolded S) (hx : x.Within e) :
    x.Unfolded S where
  symbols id hid := h.symbols id (hid.trans hx)
  noCall name a ha := h.noCall name a (ha.trans hx)
  noMatrix rows columns es hes := h.noMatrix rows columns es (hes.trans hx)
  several es hes := h.several es (hes.imp (·.trans hx) (·.trans hx))

theorem Unfolded.operand {c : Expression} (h : e.Unfolded S) (hc : c ∈ e.operands) :
    c.Unfolded S := h.of_within (.operand hc .self)

theorem unfolded_symbol {id : Nat} (hid : S id) : (symbol id).Unfolded S := by
  have hself : ∀ {x : Expression}, x.Within (symbol id) → x = symbol id := fun hx =>
    (within_iff.1 hx).resolve_right fun ⟨_, hc, _⟩ => absurd hc List.not_mem_nil
  refine ⟨fun id' h => ?_, fun name a h => ?_, fun rows columns es h => ?_, fun es h => ?_⟩
  · cases hself h
    exact hid
  · cases hself h
  · cases hself h
  · rcases h with h | h <;> cases hself h

/-- A regular expression is unfolded if its operands are, provided that it has several of them if it
is a sum or product. -/
theorem unfolded_of_operands (he : e.isRegular = true) (hes : ∀ c ∈ e.operands, c.Unfolded S)
    (hseveral : ∀ es, e = sum es ∨ e = product es → 2 ≤ es.length) : e.Unfolded S where
  symbols id hid := by
    rcases within_iff.1 hid with rfl | ⟨c, hc, hid⟩
    · cases he
    · exact (hes c hc).symbols id hid
  noCall name a ha := by
    rcases within_iff.1 ha with rfl | ⟨c, hc, ha⟩
    · cases he
    · exact (hes c hc).noCall name a ha
  noMatrix rows columns es h := by
    rcases within_iff.1 h with rfl | ⟨c, hc, h⟩
    · cases he
    · exact (hes c hc).noMatrix rows columns es h
  several es h := by
    rcases h with h | h <;> rcases within_iff.1 h with rfl | ⟨c, hc, h⟩
    · exact hseveral es (.inl rfl)
    · exact (hes c hc).several es (.inl h)
    · exact hseveral es (.inr rfl)
    · exact (hes c hc).several es (.inr h)

theorem unfolded_rebuild (he : e.isRegular = true) {ts : List Expression}
    (hlength : ts.length = e.operands.length) (hts : ∀ t ∈ ts, t.Unfolded S) :
    (e.rebuild ts).Unfolded S := by
  rcases rebuild_cases he hlength with ⟨t, rfl, heq⟩ | ⟨hoperands, hregular, hseveral⟩
  · rw [heq]
    exact hts t List.mem_cons_self
  · exact unfolded_of_operands hregular (by rwa [hoperands]) hseveral

end

/-- The function gives unfolded expressions if the parameters in scope stand for such. -/
def Unfolding (S : Nat → Prop) (unfolded : Arguments → Expression → Except Obstacle Expression) :
    Prop :=
  ∀ scope e t, (∀ p ∈ scope, p.2.Unfolded S) → unfolded scope e = .ok t → t.Unfolded S

theorem Unfolding.unfoldWith {unfolded : Arguments → Expression → Except Obstacle Expression}
    (h : Unfolding (Kept Δ mode) unfolded) :
    Unfolding (Kept Δ mode) (unfoldWith Δ mode unfolded) := by
  intro scope e t hscope ht
  refine unfoldWith_induction (P := fun _ t => t.Unfolded (Kept Δ mode)) (fun id t ht => ?_)
    (fun name a v t hv _ ht => ?_) (fun e ts he hts => ?_) ht
  · rcases unfoldSymbol_cases (fun _ _ => []) ht with ⟨hmem, -⟩ | ⟨v, -, -, -, hv, -⟩ |
      ⟨rfl, -, hkept, -⟩
    · exact hscope _ hmem
    · exact h scope v t hscope hv
    · exact unfolded_symbol hkept
  · obtain ⟨parameter, body, -, ht⟩ := unfoldCall_eq_ok_iff.1 ht
    refine h _ body t (fun p hp => ?_) ht
    rcases List.mem_append.1 hp with hp | hp
    · obtain ⟨q, -, rfl⟩ := List.mem_map.1 hp
      exact hv
    · exact hscope p hp
  · refine unfolded_rebuild he hts.length_eq.symm fun t ht => ?_
    obtain ⟨_, -, ht⟩ := exists_of_forall₂_right hts ht
    exact ht

theorem unfolding_unfoldAt (depth : Nat) : Unfolding (Kept Δ mode) (unfoldAt Δ mode depth) := by
  induction depth with
  | zero => exact Unfolding.unfoldWith nofun
  | succ depth ih => exact ih.unfoldWith

/-- What an expression unfolds to is unfolded. -/
theorem unfolded_of_unfold {e t : Expression} (h : e.unfold Δ mode = .ok t) :
    t.Unfolded (Kept Δ mode) := unfolding_unfoldAt _ [] e t nofun h

/-! ### Circular definitions -/

/-- Unfolding an expression while certain parameters are in scope needs the value of a variable that
is not hidden, or the body of a function, with its parameter in scope. -/
inductive Needs (Δ : Definitions) (mode : Mode) : Set Nat × Expression → Set Nat × Expression → Prop
  | value {bound : Set Nat} {e v : Expression} {id : Nat} (hmode : mode = .replaceAll)
    (hid : (symbol id).Within e) (hbound : id ∉ bound) (hv : Δ.value? id = some v) :
    Needs Δ mode (bound, e) (bound, v)
  | body {bound : Set Nat} {e a body : Expression} {name : Nat} {parameter : Option Nat}
    (hcall : (call name a).Within e) (hbody : Δ.function? name = some (parameter, body)) :
    Needs Δ mode (bound, e) ({id | id ∈ parameter} ∪ bound, body)

/-- Unfolding the expression while the parameters are in scope needs itself. -/
def Circular (Δ : Definitions) (mode : Mode) (s : Set Nat × Expression) : Prop :=
  Relation.TransGen (Needs Δ mode) s s

/-- Something that unfolding the expression needs is circular. -/
def MeetsCircle (Δ : Definitions) (mode : Mode) (s : Set Nat × Expression) : Prop :=
  ∃ c, Relation.ReflTransGen (Needs Δ mode) s c ∧ Circular Δ mode c

theorem MeetsCircle.exists_needs {s : Set Nat × Expression} (h : MeetsCircle Δ mode s) :
    ∃ s', Needs Δ mode s s' ∧ MeetsCircle Δ mode s' := by
  obtain ⟨c, hsc, hc⟩ := h
  rcases Relation.ReflTransGen.cases_head hsc with rfl | ⟨s', hss', hs'c⟩
  · -- the circle itself goes on
    obtain ⟨s', hss', hs's⟩ := Relation.TransGen.head'_iff.1 hc
    exact ⟨s', hss', s, hs's, hc⟩
  · exact ⟨s', hss', c, hs'c, hc⟩

/-- What is needed is unfolded one level deeper. -/
theorem exists_nested_of_needs {unfolded : Arguments → Expression → Except Obstacle Expression}
    {scope : Arguments} {e t : Expression} {s : Set Nat × Expression}
    (hs : Needs Δ mode ({id | id ∈ scope.map Prod.fst}, e) s)
    (ht : unfoldWith Δ mode unfolded scope e = .ok t) :
    ∃ (scope' : Arguments) (t' : Expression), {id | id ∈ scope'.map Prod.fst} = s.1 ∧
      unfolded scope' s.2 = .ok t' := by
  cases hs with
  | @value _ _ v id hmode hid hbound hv =>
    obtain ⟨w, hw⟩ := exists_unfoldWith_of_within hid ht
    rcases unfoldSymbol_cases (fun _ _ => []) hw with ⟨hmem, -⟩ | ⟨v', -, -, hv', hw, -⟩ |
      ⟨-, -, hkept, -⟩
    · exact absurd (List.mem_map_of_mem (f := Prod.fst) hmem) hbound
    · cases hv.symm.trans hv'
      exact ⟨scope, w, rfl, hw⟩
    · cases hv.symm.trans (hkept hmode)
  | @body _ _ a body name parameter hcall hbody =>
    obtain ⟨w, hw⟩ := exists_unfoldWith_of_within hcall ht
    obtain ⟨v, -, hw⟩ := Except.bind_eq_ok_iff.1 hw
    obtain ⟨parameter', body', hbody', hw⟩ := unfoldCall_eq_ok_iff.1 hw
    cases hbody.symm.trans hbody'
    refine ⟨parameter.toList.map (·, v) ++ scope, w, ?_, hw⟩
    rw [map_fst_scope]
    ext id
    simp

/-- An expression that leads to a circular definition cannot be unfolded at any depth. -/
theorem unfoldAt_ne_ok_of_meetsCircle (depth : Nat) {scope : Arguments} {e : Expression}
    (h : MeetsCircle Δ mode ({id | id ∈ scope.map Prod.fst}, e)) (t : Expression) :
    unfoldAt Δ mode depth scope e ≠ .ok t := by
  induction depth generalizing scope e t with
  | zero =>
    intro ht
    obtain ⟨s, hs, -⟩ := h.exists_needs
    obtain ⟨_, _, -, hnested⟩ := exists_nested_of_needs hs ht
    cases hnested
  | succ depth ih =>
    intro ht
    obtain ⟨s, hs, hcircle⟩ := h.exists_needs
    obtain ⟨scope', t', hbound, hnested⟩ := exists_nested_of_needs hs ht
    have hcircle' : MeetsCircle Δ mode ({id | id ∈ scope'.map Prod.fst}, s.2) := hbound ▸ hcircle
    exact ih hcircle' t' hnested

theorem unfold_ne_ok_of_meetsCircle {e : Expression} (h : MeetsCircle Δ mode (∅, e))
    (t : Expression) : e.unfold Δ mode ≠ .ok t :=
  unfoldAt_ne_ok_of_meetsCircle _ (by simpa using h) t

end Resolvent.Expression

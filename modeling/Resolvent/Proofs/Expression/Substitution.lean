import Mathlib.Logic.Function.Basic
import Resolvent.Expression.Expansion
import Resolvent.Expression.Storage
import Resolvent.Proofs.Expression.Along

/-!
# Unfolding and substitution

Unfolding replaces calls and variables in an expression by what they stand for, as expansion does
with stored expressions, and names the obstacle where that fails.  The main result is `unfold_call`:
calling a function unfolds to what its body with the argument in place of the parameter unfolds to.
Two things are needed for that.

The parameter must not be captured.  The parameters of all calls under way are in scope while the
value of a variable or the body of another function is unfolded, so a symbol there may be taken for
a parameter of the caller (`Expression.Captures`).

The argument is unfolded first and once.  If neither the argument nor the body can be unfolded, the
call therefore fails with the obstacle in the argument, and the substituted body with that in the
body where it comes first.
-/

namespace Resolvent

/-- Why an expression cannot be unfolded. -/
inductive Obstacle where
  /-- A call of a function that has no definition. -/
  | unknownFunction
  /-- A matrix. -/
  | matrix
  /-- Definitions that are nested too deep. -/
  | depth
  deriving DecidableEq

/-- The error that reports the obstacle. -/
def Obstacle.error : Obstacle → CanonicalError
  | unknownFunction | depth => .undefined
  | matrix => .matrix

namespace Expression

variable {Δ : Definitions} {mode : Mode}

/-! ### Parts -/

/-- The operands of an expression, in order. -/
def operands : Expression → List Expression
  | sum args | product args | apply _ args | matrix _ _ args => args
  | power a b | quotient a b => [a, b]
  | opposite a | call _ a => [a]
  | _ => []

/-- One expression is the other or a part of it. -/
inductive Within (x : Expression) : Expression → Prop where
  | self : Within x x
  | operand {e c : Expression} (hc : c ∈ e.operands) (h : Within x c) : Within x e

mutual

/-- Puts expressions in the places of the symbols. -/
def substitute (θ : Nat → Expression) : Expression → Expression
  | symbol id => θ id
  | sum args => sum (substituteAll θ args)
  | product args => product (substituteAll θ args)
  | power a b => power (substitute θ a) (substitute θ b)
  | opposite a => opposite (substitute θ a)
  | quotient a b => quotient (substitute θ a) (substitute θ b)
  | apply code args => apply code (substituteAll θ args)
  | call name a => call name (substitute θ a)
  | matrix rows columns args => matrix rows columns (substituteAll θ args)
  | e => e

/-- Puts expressions in the places of the symbols of a list of expressions. -/
def substituteAll (θ : Nat → Expression) : List Expression → List Expression
  | [] => []
  | e :: es => substitute θ e :: substituteAll θ es

end

/-- Puts an expression in the place of one symbol. -/
def replace (e : Expression) (t : Nat) (arg : Expression) : Expression :=
  e.substitute (Function.update symbol t arg)

theorem substituteAll_eq_map (θ : Nat → Expression) (es : List Expression) :
    substituteAll θ es = es.map (substitute θ) := by
  induction es with
  | nil => simp [substituteAll]
  | cons e es ih => simp [substituteAll, ih]

mutual

theorem substitute_symbol : ∀ e : Expression, e.substitute symbol = e
  | symbol _ | integer _ | fraction _ | float _ | constant _ | undefined | unreal => by
    simp [substitute]
  | sum args | product args | apply _ args | matrix _ _ args => by
    simp [substitute, substituteAll_symbol args]
  | power a b | quotient a b => by
    simp [substitute, substitute_symbol a, substitute_symbol b]
  | opposite a | call _ a => by simp [substitute, substitute_symbol a]

theorem substituteAll_symbol : ∀ es : List Expression, substituteAll symbol es = es
  | [] => by simp [substituteAll]
  | e :: es => by simp [substituteAll, substitute_symbol e, substituteAll_symbol es]

end

theorem operands_substitute {θ : Nat → Expression} {c e : Expression} (hc : c ∈ e.operands) :
    c.substitute θ ∈ (e.substitute θ).operands := by
  cases e <;> simp only [operands, List.not_mem_nil] at hc
  all_goals simp only [substitute, operands, substituteAll_eq_map, List.mem_map, List.mem_cons,
    List.not_mem_nil, or_false] at hc ⊢
  case sum | product | apply | matrix => exact ⟨c, hc, rfl⟩
  case power | quotient => exact hc.imp (congrArg _) (congrArg _)
  case opposite | call => exact congrArg _ hc

/-- A part with expressions in the places of its symbols is a part of the whole with them. -/
theorem Within.substitute {θ : Nat → Expression} {x e : Expression} (h : x.Within e) :
    (x.substitute θ).Within (e.substitute θ) := by
  induction h with
  | self => exact .self
  | operand hc _ ih => exact .operand (operands_substitute hc) ih

/-! ### Unfolding -/

/-- The parameters in scope, the innermost first, with the expressions they stand for. -/
abbrev Arguments := List (Nat × Expression)

/-- What a symbol unfolds to. -/
def unfoldSymbol (Δ : Definitions) (mode : Mode)
    (nested : Arguments → Expression → Except Obstacle Expression) (scope : Arguments) (id : Nat) :
    Except Obstacle Expression :=
  match scope.lookup id with
  | some e => .ok e
  | none =>
    match if mode = .replaceAll then Δ.value? id else none with
    | some value => nested scope value
    | none => .ok (symbol id)

/-- What a call unfolds to, given its unfolded argument. -/
def unfoldCall (Δ : Definitions) (nested : Arguments → Expression → Except Obstacle Expression)
    (scope : Arguments) (name : Nat) (argument : Expression) : Except Obstacle Expression :=
  match Δ.function? name with
  | none => .error .unknownFunction
  | some (parameter, body) => nested (parameter.toList.map (·, argument) ++ scope) body

mutual

/-- Unfolds an expression; `nested` unfolds the values and bodies of definitions. -/
def unfoldWith (Δ : Definitions) (mode : Mode)
    (nested : Arguments → Expression → Except Obstacle Expression) (scope : Arguments) :
    Expression → Except Obstacle Expression
  | symbol id => unfoldSymbol Δ mode nested scope id
  | sum args => do return sumOf (← unfoldAllWith Δ mode nested scope args)
  | product args => do return productOf (← unfoldAllWith Δ mode nested scope args)
  | power a b => do
    let a ← unfoldWith Δ mode nested scope a
    let b ← unfoldWith Δ mode nested scope b
    return power a b
  | opposite a => do return opposite (← unfoldWith Δ mode nested scope a)
  | quotient a b => do
    let a ← unfoldWith Δ mode nested scope a
    let b ← unfoldWith Δ mode nested scope b
    return quotient a b
  | apply code args => do return apply code (← unfoldAllWith Δ mode nested scope args)
  | call name a => do
    let a ← unfoldWith Δ mode nested scope a
    unfoldCall Δ nested scope name a
  | matrix _ _ _ => .error .matrix
  | e => .ok e

/-- Unfolds the members of a list, from the left. -/
def unfoldAllWith (Δ : Definitions) (mode : Mode)
    (nested : Arguments → Expression → Except Obstacle Expression) (scope : Arguments) :
    List Expression → Except Obstacle (List Expression)
  | [] => .ok []
  | e :: es => do
    let e ← unfoldWith Δ mode nested scope e
    let es ← unfoldAllWith Δ mode nested scope es
    return e :: es

end

/-- Unfolds an expression with definitions nested at most `depth` deep. -/
def unfoldAt (Δ : Definitions) (mode : Mode) :
    Nat → Arguments → Expression → Except Obstacle Expression
  | 0 => unfoldWith Δ mode fun _ _ => .error .depth
  | depth + 1 => unfoldWith Δ mode (unfoldAt Δ mode depth)

/-- Unfolds an expression with some parameters in scope. -/
def unfoldIn (Δ : Definitions) (mode : Mode) :
    Arguments → Expression → Except Obstacle Expression :=
  unfoldAt Δ mode maxSubstitutionDepth

/-- Unfolds an expression. -/
def unfold (Δ : Definitions) (mode : Mode) : Expression → Except Obstacle Expression :=
  unfoldIn Δ mode []

section Parts

variable {nested : Arguments → Expression → Except Obstacle Expression} {scope : Arguments}

theorem exists_unfoldWith_of_unfoldAllWith {c : Expression} {es vs : List Expression} (hc : c ∈ es)
    (h : unfoldAllWith Δ mode nested scope es = .ok vs) :
    ∃ w, unfoldWith Δ mode nested scope c = .ok w := by
  induction es generalizing vs with
  | nil => cases hc
  | cons e es ih =>
    obtain ⟨v, hv, h⟩ := Except.bind_eq_ok_iff.1 h
    obtain ⟨vs, hvs, -⟩ := Except.bind_eq_ok_iff.1 h
    rcases List.mem_cons.1 hc with rfl | hc
    · exact ⟨v, hv⟩
    · exact ih hc hvs

theorem exists_unfoldWith_of_mem_operands {c e v : Expression} (hc : c ∈ e.operands)
    (h : unfoldWith Δ mode nested scope e = .ok v) :
    ∃ w, unfoldWith Δ mode nested scope c = .ok w := by
  cases e <;> simp only [operands, List.not_mem_nil, List.mem_cons, or_false] at hc
  case sum | product | apply =>
    obtain ⟨vs, hvs, -⟩ := Except.bind_eq_ok_iff.1 h
    exact exists_unfoldWith_of_unfoldAllWith hc hvs
  case power | quotient =>
    obtain ⟨a, ha, h⟩ := Except.bind_eq_ok_iff.1 h
    obtain ⟨b, hb, -⟩ := Except.bind_eq_ok_iff.1 h
    rcases hc with rfl | rfl
    · exact ⟨a, ha⟩
    · exact ⟨b, hb⟩
  case opposite | call =>
    obtain ⟨a, ha, -⟩ := Except.bind_eq_ok_iff.1 h
    exact ⟨a, hc ▸ ha⟩
  case matrix => cases h

/-- The parts of what can be unfolded can be unfolded. -/
theorem exists_unfoldWith_of_within {x e v : Expression} (hx : x.Within e)
    (h : unfoldWith Δ mode nested scope e = .ok v) :
    ∃ w, unfoldWith Δ mode nested scope x = .ok w := by
  induction hx generalizing v with
  | self => exact ⟨v, h⟩
  | operand hc _ ih =>
    obtain ⟨w, hw⟩ := exists_unfoldWith_of_mem_operands hc h
    exact ih hw

end Parts

/-! ### Related outcomes -/

/-- Sequences of computations with related outcomes have related outcomes. -/
structure Respected (R : ∀ ⦃α : Type⦄, Except Obstacle α → Except Obstacle α → Prop) : Prop where
  refl : ∀ {α : Type} (r : Except Obstacle α), R r r
  bind : ∀ {α β : Type} {r r' : Except Obstacle α} {f f' : α → Except Obstacle β}, R r r' →
    (∀ a, R (f a) (f' a)) → R (r >>= f) (r' >>= f')

/-- The outcomes are equal, unless in the first definitions are nested too deep. -/
def Approximates ⦃α : Type⦄ (r r' : Except Obstacle α) : Prop := r = .error .depth ∨ r = r'

/-- The outcomes are equal, unless the second fails with the obstacle. -/
def EqOrFails (o : Obstacle) ⦃α : Type⦄ (r r' : Except Obstacle α) : Prop := r' = .error o ∨ r = r'

theorem respected_eq : Respected fun _ r r' => r = r' where
  refl _ := rfl
  bind h hf := by rw [h, funext hf]

theorem respected_approximates : Respected Approximates where
  refl _ := .inr rfl
  bind := by
    rintro α β r r' f f' (rfl | rfl) hf
    · exact .inl rfl
    · rcases r with o | a
      · exact .inr rfl
      · exact hf a

theorem respected_eqOrFails (o : Obstacle) : Respected (EqOrFails o) where
  refl _ := .inr rfl
  bind := by
    rintro α β r r' f f' (rfl | rfl) hf
    · exact .inl rfl
    · rcases r with o | a
      · exact .inr rfl
      · exact hf a

section Related

variable {R : ∀ ⦃α : Type⦄, Except Obstacle α → Except Obstacle α → Prop}
  {nested nested' : Arguments → Expression → Except Obstacle Expression}
  {scope scope' : Arguments} {θ : Nat → Expression}

/-- The symbols and calls of an expression have related outcomes, where on the second side other
expressions stand in the places of the symbols. -/
structure RelatedLeaves (R : ∀ ⦃α : Type⦄, Except Obstacle α → Except Obstacle α → Prop)
    (Δ : Definitions) (mode : Mode)
    (nested nested' : Arguments → Expression → Except Obstacle Expression)
    (scope scope' : Arguments) (θ : Nat → Expression) (e : Expression) : Prop where
  symbol : ∀ id, (symbol id).Within e →
    R (unfoldSymbol Δ mode nested scope id) (unfoldWith Δ mode nested' scope' (θ id))
  call : ∀ name a, (call name a).Within e → ∀ v,
    R (unfoldCall Δ nested scope name v) (unfoldCall Δ nested' scope' name v)

theorem RelatedLeaves.operand {e c : Expression}
    (h : RelatedLeaves R Δ mode nested nested' scope scope' θ e) (hc : c ∈ e.operands) :
    RelatedLeaves R Δ mode nested nested' scope scope' θ c where
  symbol id hid := h.symbol id (.operand hc hid)
  call name a hcall := h.call name a (.operand hc hcall)

-- what a definition stands for is unfolded by `nested`, so the induction is on the expression alone
mutual

theorem unfoldWith_related (hR : Respected R) : ∀ {e : Expression},
    RelatedLeaves R Δ mode nested nested' scope scope' θ e →
    R (unfoldWith Δ mode nested scope e) (unfoldWith Δ mode nested' scope' (e.substitute θ))
  | symbol id, h => h.symbol id .self
  | integer _, _ | fraction _, _ | float _, _ | constant _, _ | undefined, _ | unreal, _
  | matrix _ _ _, _ => hR.refl _
  | sum _, h | product _, h | apply _ _, h =>
    hR.bind (unfoldAllWith_related hR fun _ hc => h.operand hc) fun _ => hR.refl _
  | power _ _, h | quotient _ _, h =>
    hR.bind (unfoldWith_related hR (h.operand List.mem_cons_self)) fun _ =>
      hR.bind (unfoldWith_related hR (h.operand (List.mem_cons_of_mem _ List.mem_cons_self)))
        fun _ => hR.refl _
  | opposite _, h =>
    hR.bind (unfoldWith_related hR (h.operand List.mem_cons_self)) fun _ => hR.refl _
  | call name a, h =>
    hR.bind (unfoldWith_related hR (h.operand List.mem_cons_self)) fun v =>
      h.call name a .self v

theorem unfoldAllWith_related (hR : Respected R) : ∀ {es : List Expression},
    (∀ e ∈ es, RelatedLeaves R Δ mode nested nested' scope scope' θ e) →
    R (unfoldAllWith Δ mode nested scope es)
      (unfoldAllWith Δ mode nested' scope' (substituteAll θ es))
  | [], _ => hR.refl _
  | _ :: _, h =>
    hR.bind (unfoldWith_related hR (h _ List.mem_cons_self)) fun _ =>
      hR.bind (unfoldAllWith_related hR fun e he => h e (List.mem_cons_of_mem _ he)) fun _ =>
        hR.refl _

end

end Related

/-! ### Capture -/

/-- Unfolding the expression meets the symbol `t` where none of the parameters in scope has its
name. -/
inductive LooksUp (Δ : Definitions) (mode : Mode) (t : Nat) : List Nat → Expression → Prop where
  | here {bound : List Nat} (h : t ∉ bound) : LooksUp Δ mode t bound (symbol t)
  | value {bound : List Nat} {id : Nat} {v : Expression} (hmode : mode = .replaceAll)
    (hid : id ∉ bound) (hv : Δ.value? id = some v) (h : LooksUp Δ mode t bound v) :
    LooksUp Δ mode t bound (symbol id)
  | body {bound : List Nat} {name : Nat} {parameter : Option Nat} {body a : Expression}
    (hbody : Δ.function? name = some (parameter, body))
    (h : LooksUp Δ mode t (parameter.toList ++ bound) body) : LooksUp Δ mode t bound (call name a)
  | operand {bound : List Nat} {e c : Expression} (hc : c ∈ e.operands)
    (h : LooksUp Δ mode t bound c) : LooksUp Δ mode t bound e

/-- As the parameter of a function with this body, `t` captures a symbol: one in the value of
another variable or in the body of a function that is called there. -/
inductive Captures (Δ : Definitions) (mode : Mode) (t : Nat) : Expression → Prop where
  | value {id : Nat} {v : Expression} (hmode : mode = .replaceAll) (hid : id ≠ t)
    (hv : Δ.value? id = some v) (h : LooksUp Δ mode t [] v) : Captures Δ mode t (symbol id)
  | body {name : Nat} {parameter : Option Nat} {body a : Expression}
    (hbody : Δ.function? name = some (parameter, body))
    (h : LooksUp Δ mode t parameter.toList body) : Captures Δ mode t (call name a)
  | operand {e c : Expression} (hc : c ∈ e.operands) (h : Captures Δ mode t c) : Captures Δ mode t e

theorem LooksUp.of_within {t : Nat} {bound : List Nat} {x e : Expression} (hx : x.Within e)
    (h : LooksUp Δ mode t bound x) : LooksUp Δ mode t bound e := by
  induction hx with
  | self => exact h
  | operand hc _ ih => exact .operand hc ih

theorem Captures.of_within {t : Nat} {x e : Expression} (hx : x.Within e)
    (h : Captures Δ mode t x) : Captures Δ mode t e := by
  induction hx with
  | self => exact h
  | operand hc _ ih => exact .operand hc ih

theorem captures_symbol_iff {t id : Nat} : Captures Δ mode t (symbol id) ↔
    mode = .replaceAll ∧ id ≠ t ∧ ∃ v, Δ.value? id = some v ∧ LooksUp Δ mode t [] v := by
  constructor
  · rintro (⟨hmode, hid, hv, h⟩ | _ | ⟨hc, -⟩)
    · exact ⟨hmode, hid, _, hv, h⟩
    · cases hc
  · rintro ⟨hmode, hid, v, hv, h⟩
    exact .value hmode hid hv h

theorem captures_sum_iff {t : Nat} {es : List Expression} :
    Captures Δ mode t (sum es) ↔ ∃ e ∈ es, Captures Δ mode t e := by
  constructor
  · rintro (_ | _ | ⟨hc, h⟩)
    exact ⟨_, hc, h⟩
  · rintro ⟨e, he, h⟩
    exact .operand he h

theorem captures_call_iff {t name : Nat} {a : Expression} : Captures Δ mode t (call name a) ↔
    (∃ p b, Δ.function? name = some (p, b) ∧ LooksUp Δ mode t p.toList b) ∨ Captures Δ mode t a := by
  constructor
  · rintro (_ | ⟨hbody, h⟩ | ⟨hc, h⟩)
    · exact .inl ⟨_, _, hbody, h⟩
    · exact .inr (List.mem_singleton.1 hc ▸ h)
  · rintro (⟨p, b, hbody, h⟩ | h)
    · exact .body hbody h
    · exact .operand List.mem_cons_self h

section Scope

variable {R : ∀ ⦃α : Type⦄, Except Obstacle α → Except Obstacle α → Prop}
  {nested nested' : Arguments → Expression → Except Obstacle Expression} {t : Nat}
  {arg a : Expression}

/-- A parameter at the end of the scope makes no difference for expressions in which it is not
looked up. -/
def Overlooks (R : ∀ ⦃α : Type⦄, Except Obstacle α → Except Obstacle α → Prop) (Δ : Definitions)
    (mode : Mode) (t : Nat) (a : Expression)
    (nested nested' : Arguments → Expression → Except Obstacle Expression) : Prop :=
  ∀ scope e, ¬LooksUp Δ mode t (scope.map Prod.fst) e →
    R (nested (scope ++ [(t, a)]) e) (nested' scope e)

theorem Overlooks.unfoldCall (hN : Overlooks R Δ mode t a nested nested') (scope : Arguments)
    (hR : Respected R) {name : Nat} {x : Expression}
    (h : ∀ p b, Δ.function? name = some (p, b) →
      ¬LooksUp Δ mode t (p.toList ++ scope.map Prod.fst) b) :
    R (unfoldCall Δ nested (scope ++ [(t, a)]) name x) (unfoldCall Δ nested' scope name x) := by
  unfold Expression.unfoldCall
  split
  · exact hR.refl _
  · next parameter body hbody =>
    rw [← List.append_assoc]
    refine hN _ body ?_
    have := h parameter body hbody
    cases parameter <;> exact this

theorem lookup_singleton_of_ne {id : Nat} (h : id ≠ t) : List.lookup id [(t, a)] = none := by
  rw [List.lookup_cons, beq_false_of_ne h, List.lookup_nil]

theorem Overlooks.unfoldSymbol (hN : Overlooks R Δ mode t a nested nested') (hR : Respected R)
    {scope : Arguments} {id : Nat} (h : ¬LooksUp Δ mode t (scope.map Prod.fst) (symbol id)) :
    R (unfoldSymbol Δ mode nested (scope ++ [(t, a)]) id)
      (unfoldSymbol Δ mode nested' scope id) := by
  unfold Expression.unfoldSymbol
  rw [List.lookup_append]
  rcases hlookup : scope.lookup id with - | e
  · have hscope : id ∉ scope.map Prod.fst := by 
      rintro hmem
      obtain ⟨p, hp, rfl⟩ := List.mem_map.1 hmem
      exact absurd rfl (bne_iff_ne.1 (List.lookup_eq_none_iff.1 hlookup p hp))
    -- otherwise `t` itself would be looked up
    have hid : id ≠ t := fun heq => h (heq ▸ .here (heq ▸ hscope))
    rw [lookup_singleton_of_ne hid, Option.none_or]
    split
    · next hvalue => cases hvalue
    · split
      · next v hv =>
        obtain ⟨hmode, hv⟩ := Option.ite_none_right_eq_some.1 hv
        exact hN scope v fun hlook => h (.value hmode hscope hv hlook)
      · exact hR.refl _
  · exact hR.refl _

theorem Overlooks.unfoldWith (hN : Overlooks R Δ mode t a nested nested') (hR : Respected R) :
    Overlooks R Δ mode t a (unfoldWith Δ mode nested) (unfoldWith Δ mode nested') := by
  intro scope e he
  have hleaves : RelatedLeaves R Δ mode nested nested' (scope ++ [(t, a)]) scope symbol e := by
    refine ⟨fun id hid => ?_, fun name x hcall v => ?_⟩
    · exact hN.unfoldSymbol hR fun hlook => he (hlook.of_within hid)
    · exact hN.unfoldCall scope hR fun p b hb hlook => he (.of_within hcall (.body hb hlook))
  have h := unfoldWith_related hR hleaves
  rwa [substitute_symbol] at h

/-- At any depth, a parameter that is not looked up makes no difference. -/
theorem overlooks_unfoldAt (depth : Nat) :
    Overlooks (fun _ r r' => r = r') Δ mode t a (unfoldAt Δ mode depth) (unfoldAt Δ mode depth) := by
  induction depth with
  | zero => exact Overlooks.unfoldWith (fun _ _ _ => rfl) respected_eq
  | succ depth ih => exact ih.unfoldWith respected_eq

/-- At a greater depth, only what was nested too deep unfolds to something else. -/
theorem overlooks_unfoldAt_succ (depth : Nat) : Overlooks Approximates Δ mode t a
    (unfoldAt Δ mode depth) (unfoldAt Δ mode (depth + 1)) := by
  induction depth with
  | zero => exact Overlooks.unfoldWith (fun _ _ _ => .inl rfl) respected_approximates
  | succ depth ih => exact ih.unfoldWith respected_approximates

/-- What the body unfolds to with a parameter in scope, and what it unfolds to with the argument in
place of the parameter, are related if the expansions of the argument are. -/
theorem unfoldWith_replace (hN : Overlooks R Δ mode t a nested nested') (hR : Respected R)
    {body : Expression} (hcaptures : ¬body.Captures Δ mode t)
    (harg : R (.ok a) (unfoldWith Δ mode nested' [] arg)) :
    R (unfoldWith Δ mode nested [(t, a)] body)
      (unfoldWith Δ mode nested' [] (body.replace t arg)) := by
  refine unfoldWith_related hR ⟨fun id hid => ?_, fun name x hcall v => ?_⟩
  · by_cases hidt : id = t
    · rw [hidt, Function.update_self]
      simpa [unfoldSymbol, List.lookup_cons] using harg
    · rw [Function.update_of_ne hidt]
      unfold Expression.unfoldWith Expression.unfoldSymbol
      rw [lookup_singleton_of_ne hidt, List.lookup_nil]
      dsimp only
      split
      · next v hv =>
        obtain ⟨hmode, hv⟩ := Option.ite_none_right_eq_some.1 hv
        exact hN [] v fun hlook => hcaptures (.of_within hid (.value hmode hidt hv hlook))
      · exact hR.refl _
  · refine Overlooks.unfoldCall hN (List.nil : Arguments) hR fun p b hb hlook => ?_
    exact hcaptures (.of_within hcall (.body hb (by simpa using hlook)))

end Scope

/-! ### Calls -/

section Calls

variable {f t : Nat} {body arg : Expression}

/-- A call unfolds the argument first, and then the body with the parameter in scope. -/
theorem unfold_call_eq (mode : Mode) (arg : Expression) (hf : Δ.function? f = some (some t, body)) :
    unfold Δ mode (call f arg) =
      (unfold Δ mode arg >>= fun a => unfoldAt Δ mode (maxSubstitutionDepth - 1) [(t, a)] body) := by
  have hcall : ∀ a, unfoldCall Δ (unfoldAt Δ mode (maxSubstitutionDepth - 1)) [] f a =
      unfoldAt Δ mode (maxSubstitutionDepth - 1) [(t, a)] body := by
    intro a
    simp [unfoldCall, hf]
  exact congrArg (unfold Δ mode arg >>= ·) (funext hcall)

/-- A call unfolds to what the body with the argument in place of the parameter unfolds to.  If
neither the argument nor the body can be unfolded, each side may name the obstacle of its own. -/
theorem unfold_call (hf : Δ.function? f = some (some t, body)) (ht : (symbol t).Within body)
    (hcaptures : ¬body.Captures Δ mode t) (hdepth : unfold Δ mode (call f arg) ≠ .error .depth) :
    unfold Δ mode (call f arg) = unfold Δ mode (body.replace t arg) ∨
      ∃ o o', unfold Δ mode arg = .error o ∧ (∀ a, unfoldIn Δ mode [(t, a)] body = .error o') ∧
        unfold Δ mode (call f arg) = .error o ∧ unfold Δ mode (body.replace t arg) = .error o' := by
  have hcall := unfold_call_eq mode arg hf
  rcases harg : unfold Δ mode arg with o | a
  · replace hcall : unfold Δ mode (call f arg) = .error o := by rw [hcall, harg]; rfl
    by_cases heq : unfold Δ mode (body.replace t arg) = .error o
    · exact .inl (hcall.trans heq.symm)
    -- the body fails before the argument is reached, whatever the argument is
    have hbody : ∀ a, unfoldIn Δ mode [(t, a)] body = unfold Δ mode (body.replace t arg) := by
      intro a
      have hN : Overlooks (EqOrFails o) Δ mode t a (unfoldAt Δ mode 31) (unfoldAt Δ mode 31) :=
        fun scope e he => .inr (overlooks_unfoldAt 31 scope e he)
      exact (unfoldWith_replace hN (respected_eqOrFails o) hcaptures (.inl harg)).resolve_left heq
    rcases hreplace : unfold Δ mode (body.replace t arg) with o' | v
    · exact .inr ⟨o, o', rfl, fun a => (hbody a).trans hreplace, hcall, rfl⟩
    · -- the argument stands in the body, so it could be unfolded
      have hwithin : arg.Within (body.replace t arg) := by
        have h := ht.substitute (θ := Function.update symbol t arg)
        rwa [substitute, Function.update_self] at h
      obtain ⟨w, hw⟩ := exists_unfoldWith_of_within hwithin hreplace
      cases harg.symm.trans hw
  · replace hcall : unfold Δ mode (call f arg) = unfoldAt Δ mode 31 [(t, a)] body := by
      rw [hcall, harg]; rfl
    have hN : Overlooks Approximates Δ mode t a (unfoldAt Δ mode 30) (unfoldAt Δ mode 31) :=
      overlooks_unfoldAt_succ 30
    rcases unfoldWith_replace hN respected_approximates hcaptures (.inr harg.symm) with
      hbody | hbody
    · exact absurd (hcall.trans hbody) hdepth
    · exact .inl (hcall.trans hbody)

end Calls

end Expression

end Resolvent

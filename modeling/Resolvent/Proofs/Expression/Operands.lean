import Resolvent.Proofs.Expression.Denotation

/-!
# Expressions and their operands

All expressions but symbols, calls and matrices are unfolded alike: their operands are unfolded, and
an expression of the same kind is put together from what these give (`Expression.rebuild`).  So what
unfolding preserves is proved for three kinds of expressions, whatever there is an operation for
(`Expression.unfoldWith_induction`), and expansion has the same three cases
(`Expression.expandWith_of_isRegular`).
-/

namespace Resolvent

theorem exists_of_forall₂_left {α β : Type} {R : α → β → Prop} {as : List α} {bs : List β}
    (h : List.Forall₂ R as bs) {a : α} (ha : a ∈ as) : ∃ b ∈ bs, R a b := by
  induction h with
  | nil => cases ha
  | cons hab _ ih =>
    rcases List.mem_cons.1 ha with rfl | ha
    · exact ⟨_, List.mem_cons_self, hab⟩
    · obtain ⟨b, hb, hab⟩ := ih ha
      exact ⟨b, List.mem_cons_of_mem _ hb, hab⟩

theorem exists_of_forall₂_right {α β : Type} {R : α → β → Prop} {as : List α} {bs : List β}
    (h : List.Forall₂ R as bs) {b : β} (hb : b ∈ bs) : ∃ a ∈ as, R a b :=
  exists_of_forall₂_left h.flip hb

namespace Expression

variable {Δ : Definitions} {mode : Mode}

/-! ### Kinds of expressions -/

/-- The expression is neither a symbol nor a call nor a matrix. -/
def isRegular : Expression → Bool
  | symbol _ | call _ _ | matrix _ _ _ => false
  | _ => true

/-- An expression of the same kind with other operands, where sums and products of one operand are
that operand. -/
def rebuild : Expression → List Expression → Expression
  | sum _, es => sumOf es
  | product _, es => productOf es
  | power _ _, [a, b] => power a b
  | opposite _, [a] => opposite a
  | quotient _ _, [a, b] => quotient a b
  | apply code _, es => apply code es
  | e, _ => e

/-- What holds of an expression if it holds of its operands holds of all expressions. -/
theorem induction_on_operands {P : Expression → Prop}
    (h : ∀ e : Expression, (∀ c ∈ e.operands, P c) → P e) (e : Expression) : P e :=
  have one : ∀ {a}, P a → ∀ c ∈ [a], P c := List.forall_mem_singleton.2
  have two : ∀ {a b}, P a → P b → ∀ c ∈ [a, b], P c := fun ha hb =>
    List.forall_mem_cons.2 ⟨ha, one hb⟩
  @Expression.rec P (fun es => ∀ c ∈ es, P c) (fun _ => h _ nofun) (fun _ => h _ nofun)
    (fun _ => h _ nofun) (fun _ => h _ nofun) (fun _ => h _ nofun) (h _ nofun) (h _ nofun)
    (fun es => h (sum es)) (fun es => h (product es)) (fun _ _ ha hb => h (power _ _) (two ha hb))
    (fun _ ha => h (opposite _) (one ha)) (fun _ _ ha hb => h (quotient _ _) (two ha hb))
    (fun code es => h (apply code es)) (fun _ _ ha => h (call _ _) (one ha))
    (fun r c es => h (matrix r c es)) nofun (fun _ _ he hes => List.forall_mem_cons.2 ⟨he, hes⟩) e

/-- A part of an expression is the expression or a part of an operand. -/
theorem within_iff {x e : Expression} : x.Within e ↔ x = e ∨ ∃ c ∈ e.operands, x.Within c := by
  constructor
  · rintro (_ | ⟨hc, h⟩)
    · exact .inl rfl
    · exact .inr ⟨_, hc, h⟩
  · rintro (rfl | ⟨c, hc, h⟩)
    · exact .self
    · exact .operand hc h

theorem Within.trans {x y z : Expression} (hxy : x.Within y) (hyz : y.Within z) : x.Within z := by
  induction hyz with
  | self => exact hxy
  | operand hc _ ih => exact .operand hc ih

theorem anyOf_eq_true_iff {p : Expression → Bool} {es : List Expression} :
    anyOf p es = true ↔ ∃ e ∈ es, e.any p = true := by
  induction es with
  | nil => simp [anyOf]
  | cons e es ih => simp [anyOf, ih]

/-- A property is found within an expression where the expression has it or it is found within an
operand. -/
theorem any_eq_true_iff {p : Expression → Bool} {e : Expression} :
    e.any p = true ↔ p e = true ∨ ∃ a ∈ e.operands, a.any p = true := by
  cases e <;> simp [any, operands, anyOf_eq_true_iff, or_assoc]

/-- What is put together from operands is a sum or product of several or has these operands, unless
it is an operand. -/
theorem rebuild_cases {e : Expression} (he : e.isRegular = true) {ts : List Expression}
    (hlength : ts.length = e.operands.length) :
    (∃ t, ts = [t] ∧ e.rebuild ts = t) ∨
      (e.rebuild ts).operands = ts ∧ (e.rebuild ts).isRegular = true ∧
        ∀ es, e.rebuild ts = sum es ∨ e.rebuild ts = product es → 2 ≤ es.length := by
  cases e with
  | symbol | call | matrix => cases he
  | sum args =>
    rcases ts with _ | ⟨a, _ | ⟨b, ts⟩⟩
    · exact .inr ⟨rfl, rfl, nofun⟩
    · exact .inl ⟨a, rfl, rfl⟩
    · refine .inr ⟨rfl, rfl, fun es h => ?_⟩
      rcases h with h | h <;> cases h
      exact Nat.le_add_left 2 _
  | product args =>
    rcases ts with _ | ⟨a, _ | ⟨b, ts⟩⟩
    · exact .inr ⟨rfl, rfl, nofun⟩
    · exact .inl ⟨a, rfl, rfl⟩
    · refine .inr ⟨rfl, rfl, fun es h => ?_⟩
      rcases h with h | h <;> cases h
      exact Nat.le_add_left 2 _
  | power a b | quotient a b =>
    obtain ⟨a, b, rfl⟩ := List.length_eq_two.1 hlength
    exact .inr ⟨rfl, rfl, nofun⟩
  | opposite a =>
    obtain ⟨a, rfl⟩ := List.length_eq_one_iff.1 hlength
    exact .inr ⟨rfl, rfl, nofun⟩
  | apply code args => exact .inr ⟨rfl, rfl, nofun⟩
  | _ =>
    obtain rfl := List.eq_nil_of_length_eq_zero hlength
    exact .inr ⟨rfl, rfl, nofun⟩

/-- The symbols of an expression that is put together are those of its operands. -/
theorem symbol_within_rebuild {e : Expression} (he : e.isRegular = true) {ts : List Expression}
    (hlength : ts.length = e.operands.length) {id : Nat} :
    (symbol id).Within (e.rebuild ts) ↔ ∃ t ∈ ts, (symbol id).Within t := by
  rcases rebuild_cases he hlength with ⟨t, rfl, heq⟩ | ⟨hoperands, hregular, -⟩
  · rw [heq]
    simp
  · rw [within_iff, hoperands, or_iff_right]
    intro heq
    rw [← heq] at hregular
    cases hregular

/-! ### Unfolding -/

section Unfolding

variable {nested : Arguments → Expression → Except Obstacle Expression} {scope : Arguments}

theorem unfoldAllWith_eq_ok_iff {es ts : List Expression} :
    unfoldAllWith Δ mode nested scope es = .ok ts ↔
      List.Forall₂ (fun e t => unfoldWith Δ mode nested scope e = .ok t) es ts := by
  induction es generalizing ts with
  | nil =>
    rw [List.forall₂_nil_left_iff, unfoldAllWith]
    exact ⟨fun h => (Except.ok.inj h).symm, fun h => h ▸ rfl⟩
  | cons e es ih =>
    rw [List.forall₂_cons_left_iff, unfoldAllWith]
    constructor
    · intro h
      obtain ⟨t, ht, h⟩ := Except.bind_eq_ok_iff.1 h
      obtain ⟨ts', hts, h⟩ := Except.bind_eq_ok_iff.1 h
      exact ⟨t, ts', ht, ih.1 hts, (Except.ok.inj h).symm⟩
    · rintro ⟨t, ts', ht, hts, rfl⟩
      rw [ht, ih.2 hts]
      rfl

/-- A regular expression unfolds to one of its kind, with what its operands unfold to. -/
theorem unfoldWith_of_isRegular {e : Expression} (he : e.isRegular = true) :
    unfoldWith Δ mode nested scope e =
      (unfoldAllWith Δ mode nested scope e.operands).map e.rebuild := by
  cases e with
  | symbol | call | matrix => cases he
  | power a b | quotient a b =>
    simp only [operands, unfoldWith, unfoldAllWith]
    rcases unfoldWith Δ mode nested scope a with o | a
    · rfl
    · rcases unfoldWith Δ mode nested scope b with o | b <;> rfl
  | opposite a =>
    simp only [operands, unfoldWith, unfoldAllWith]
    rcases unfoldWith Δ mode nested scope a with o | a <;> rfl
  | sum args | product args | apply code args =>
    simp only [operands, unfoldWith]
    rcases unfoldAllWith Δ mode nested scope args with o | args <;> rfl
  | _ => rfl

/-- What holds of the outcomes of symbols, of calls if it holds of their arguments, and of regular
expressions if it holds of their operands, holds wherever unfolding succeeds. -/
theorem unfoldWith_induction {P : Expression → Expression → Prop}
    (symbol : ∀ id t, unfoldSymbol Δ mode nested scope id = .ok t → P (symbol id) t)
    (call : ∀ name a v t, P a v → unfoldWith Δ mode nested scope a = .ok v →
      unfoldCall Δ nested scope name v = .ok t → P (call name a) t)
    (regular : ∀ e ts, e.isRegular = true → List.Forall₂ P e.operands ts → P e (e.rebuild ts))
    {e t : Expression} (h : unfoldWith Δ mode nested scope e = .ok t) : P e t := by
  induction e using induction_on_operands generalizing t with
  | h e ih =>
    by_cases he : e.isRegular = true
    · rw [unfoldWith_of_isRegular he] at h
      obtain ⟨ts, hts, rfl⟩ := Except.map_eq_ok_iff.1 h
      refine regular e ts he ?_
      have hoperands := (List.forall₂_and_left (p := (· ∈ e.operands)) _ _).2
        ⟨fun _ hc => hc, unfoldAllWith_eq_ok_iff.1 hts⟩
      exact hoperands.imp fun c t ⟨hc, ht⟩ => ih c hc ht
    · cases e with
      | symbol id => exact symbol id t h
      | call name a =>
        obtain ⟨v, hv, h⟩ := Except.bind_eq_ok_iff.1 h
        exact call name a v t (ih a List.mem_cons_self hv) hv h
      | matrix => cases h
      | _ => exact absurd rfl he

end Unfolding

/-! ### Expansion -/

section Expansion

variable {nested : Parameters → Expression → ExpandM Handle} {scope : Parameters}

/-- Stores an expression of the same kind over the handles of its operands. -/
def construct : Expression → List Handle → Build Handle
  | sum _, hs => Build.sum hs
  | product _, hs => Build.product hs
  | e, hs => Build.intern (Arena.nodeOf e hs)

/-- A regular expression is expanded by its operands, and one of its kind is stored over these. -/
theorem expandWith_of_isRegular {e : Expression} (he : e.isRegular = true) :
    expandWith Δ mode nested scope e =
      expandAllWith Δ mode nested scope e.operands >>= fun hs =>
        ExpandM.build (e.construct hs) := by
  cases e with
  | symbol | call | matrix => cases he
  | power a b | quotient a b | opposite a =>
    simp only [operands, expandWith, expandAllWith, bind_assoc, pure_bind]
    rfl
  | sum args | product args | apply code args => rfl
  | _ =>
    simp only [operands, expandAllWith, pure_bind]
    rfl

end Expansion

end Expression

end Resolvent

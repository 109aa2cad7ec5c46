import Resolvent.Proofs.Expression.Encounters
import Resolvent.Proofs.Expression.Unfolded
import Resolvent.Proofs.Rewriting.Simplifier
import Resolvent.Proofs.Solve.Upkeep
import Resolvent.Proofs.Term.Meaning
import Resolvent.Proofs.Term.Placeholders
import Resolvent.Rewriting.Rules

/-!
# What canonical forms depend on

A stored expression depends on the symbols that are met while it is expanded and that its form
mentions or that stand in the argument of a call (`Form.dependencies`).  These are the symbols that
come with its canonical form, in the order in which they are met first, and the form has no others
(`Build.canonical_depends`): neither the identities nor the forms bring in symbols that have not been
met.

Taking an expression apart into a term, simplifying the term and putting an expression together again
brings no new symbols in (`Arena.symbolsIn_term`, `Simplifier.KeepsHeads.symbolsIn`,
`Term.build_denotesIn`): the term has symbols of the expression, constants and placeholders only, the
identities add none, and a symbol that is put together again has the number of its name.  That the
simplifier brings in nothing but what the identities do is assumed.
-/

namespace Resolvent

variable {A : Arena} {names : Symbols} {S : Nat → Prop} {h k : Handle} {hs : List Handle}

/-! ### Handles of expressions with identifiers of a class -/

/-- The handle denotes an expression whose identifiers are in a class. -/
def DenotesIn (S : Nat → Prop) (h : Handle) (A : Arena) : Prop :=
  ∃ e, Denotes e h A ∧ e.IdentifiersIn S

theorem lasting_denotesIn : Lasting (DenotesIn S) := fun _ _ _ hAB ⟨e, he, hS⟩ =>
  ⟨e, lasting_denotes e _ _ _ hAB he, hS⟩

theorem DenotesIn.identifiersIn (hh : DenotesIn S h A) : (A.expression h).IdentifiersIn S := by
  obtain ⟨e, he, hS⟩ := hh
  rwa [he.expression_eq]

theorem exists_denotesAll (hhs : ∀ k ∈ hs, DenotesIn S k A) :
    ∃ es, DenotesAll es hs A ∧ ∀ e ∈ es, e.IdentifiersIn S := by
  induction hs with
  | nil => exact ⟨[], denotesAll_nil.2 rfl, List.forall_mem_nil _⟩
  | cons k hs ih =>
    obtain ⟨⟨e, he, hS⟩, hhs⟩ := List.forall_mem_cons.1 hhs
    obtain ⟨es, hes, hall⟩ := ih hhs
    exact ⟨e :: es, denotesAll_cons he hes, List.forall_mem_cons.2 ⟨hS, hall⟩⟩

/-! ### Taking apart -/

/-- The parts of an expression have no other identifiers. -/
theorem DenotesIn.child (hA : A.WellFormed) (hh : DenotesIn S h A) {n : Node}
    (hn : A.node? h = some n) {c : Handle} (hc : c ∈ n.children) : DenotesIn S c A := by
  obtain ⟨e, he, hS⟩ := hh
  obtain ⟨m, hm, -, hoperands⟩ := hA.exists_node?_of_denotes he
  cases hn.symm.trans hm
  obtain ⟨x, hx, hcx⟩ := hoperands.exists_mem hc
  exact ⟨x, hcx, hS.operand hx⟩

/-- The term of an expression has no symbols but those of the expression, besides constants and
placeholders, and what its placeholders stand for has no others either. -/
theorem Arena.symbolsIn_term (hA : A.WellFormed) (hh : DenotesIn S h A) :
    (A.term h).1.HeadsIn (Head.SymbolsIn A.symbols S) ∧
      ∀ p ∈ (A.term h).2, DenotesIn S p A := by
  have hdecent := Lowering.Admits.pushExpression (S := S) (P := fun c => DenotesIn S c A)
    (fun c n hc hn d hd => hc.child hA hn hd) (fun c id hc hn => ?_) A.nodes.size hh {} .empty
  · exact ⟨hdecent.heads, fun p hp => hdecent.placeholders p (Array.mem_toList_iff.1 hp)⟩
  · obtain ⟨e, he, hS⟩ := hc
    cases (hA.expression?_eq hn).symm.trans he
    exact ⟨Expression.identifiersIn_symbol.1 hS, (hA.named c _ hn id rfl).2⟩

/-! ### Simplifying -/

/-- The right-hand sides of the identities have no symbols. -/
theorem Rules.symbolsIn_rhs : ∀ r ∈ Rules.all, r.rhs.HeadsIn (Head.SymbolsIn names S) := by
  have hnumber : ∀ n, Head.SymbolsIn names S (.number n) := .number
  have hop : ∀ o, o ≠ .call → Head.SymbolsIn names S (.op o) := fun _ => .op
  simp [Rules.all, Rules.arithmetic, Rules.angles, Rules.exponentials, Rules.a, Rules.b, Rules.c,
    Pattern.HeadsIn, Pattern.AllHeadsIn, Pattern.number, Pattern.add, Pattern.mul, Pattern.neg,
    Pattern.call, hnumber, hop]

/-- A simplifier that brings in the heads of the identities only brings in no symbols. -/
theorem Simplifier.KeepsHeads.symbolsIn {s : Simplifier} (hs : s.KeepsHeads) (moment : Nat)
    {t : Term} (ht : t.HeadsIn (Head.SymbolsIn names S)) :
    (s.simplify moment t).HeadsIn (Head.SymbolsIn names S) :=
  hs _ moment ht Rules.symbolsIn_rhs

/-! ### Putting together -/

namespace Head

open Build

variable {placeholders : List Handle} {operands : List (Head × Handle)}

/-- What is stored for an expression with identifiers of a class denotes one. -/
theorem stores_denotesIn {m : Build Handle} {e : Expression} (hm : Stores names m A e)
    (he : e.IdentifiersIn S) : Yields id (Arena.Consistent names)
      (Build.lift ImportError.exhausted m) A (DenotesIn S) :=
  (hm.adapt _).imp fun _ _ hk => ⟨e, hk, he⟩

/-- What is stored for a node without operands and names has no identifiers. -/
theorem plain_denotesIn (hA : A.Consistent names) {n : Node} (hchildren : n.children = [])
    (hname : n.name? = none) {e : Expression} (he : Arena.assemble? A.expression? n = some e)
    (hnone : e.identifiers = []) : Yields id (Arena.Consistent names)
      (Build.lift ImportError.exhausted (intern n)) A (DenotesIn S) :=
  stores_denotesIn (intern_stores_of_plain hA hchildren hname he)
    (Expression.identifiersIn_of_eq_nil hnone)

theorem rational_denotesIn (hA : A.Consistent names) (q : Rat) :
    Yields id (Arena.Consistent names) (Build.lift ImportError.exhausted (rational q)) A
      (DenotesIn S) := by
  unfold rational
  split
  · exact plain_denotesIn hA rfl rfl rfl (by simp [Expression.identifiers])
  · exact plain_denotesIn hA rfl rfl rfl (by simp [Expression.identifiers])

/-- A symbol is put together as what it stands for, and one with a name of the class has the number
of the name. -/
theorem buildSymbol_denotesIn (hA : A.Consistent names)
    (hplaceholders : ∀ p ∈ placeholders, DenotesIn S p A) {name : String}
    (hname : (Head.symbol name).SymbolsIn names S) :
    Yields id (Arena.Consistent names) (buildSymbol placeholders name) A (DenotesIn S) := by
  unfold buildSymbol
  split
  · split
    · next hk =>
      obtain ⟨k, -, hk⟩ := Option.bind_eq_some_iff.1 hk
      exact .pure hA (hplaceholders _ (List.mem_of_getElem? hk))
    · exact .throw hA _
  · next hdollar =>
    cases hname with
    | symbol hid hS =>
      repeat' split
      all_goals
        first
          | exact .throw hA _
          | exact rational_denotesIn hA _
          | exact plain_denotesIn hA rfl rfl rfl (by simp [Expression.identifiers])
          | exact stores_denotesIn (symbol_completes hA hid).yields
              (Expression.identifiersIn_symbol.2 hS)
    | constant c =>
      cases c <;> exact plain_denotesIn hA rfl rfl rfl (by simp [Expression.identifiers])
    | placeholder k => exact absurd (String.toList_append ..) (hdollar (toString k).toList)

/-- An operator but the call of a user function brings no identifiers in. -/
theorem buildOperator_denotesIn (hA : A.Consistent names) {o : Operator} (ho : o ≠ .call)
    (h : ∀ x ∈ operands, DenotesIn S x.2 A) :
    Yields id (Arena.Consistent names) (buildOperator o operands) A (DenotesIn S) := by
  obtain ⟨es, hes, hall⟩ := exists_denotesAll (List.forall_mem_map.2 h)
  have hoperand : ∀ x ∈ operands, ∃ e, Denotes e x.2 A ∧ e.IdentifiersIn S := h
  unfold buildOperator
  split
  · exact stores_denotesIn (sum_stores hA hes) (Expression.identifiersIn_sumOf hall)
  · next a b =>
    obtain ⟨x, hx, hxS⟩ := hoperand a (by simp)
    obtain ⟨y, hy, hyS⟩ := hoperand b (by simp)
    refine stores_denotesIn (difference_stores hA hx hy) (Expression.identifiersIn_sum.2 ?_)
    simpa [hxS] using Expression.identifiersIn_opposite.2 hyS
  · exact stores_denotesIn (product_stores hA hes) (Expression.identifiersIn_productOf hall)
  · next a b =>
    obtain ⟨x, hx, hxS⟩ := hoperand a (by simp)
    obtain ⟨y, hy, hyS⟩ := hoperand b (by simp)
    exact stores_denotesIn (quotient_stores hA hx hy) (Expression.identifiersIn_quotient.2 ⟨hxS, hyS⟩)
  · next a =>
    obtain ⟨x, hx, hxS⟩ := hoperand a (by simp)
    exact stores_denotesIn (opposite_stores hA hx) (Expression.identifiersIn_opposite.2 hxS)
  · next a b =>
    obtain ⟨x, hx, hxS⟩ := hoperand a (by simp)
    obtain ⟨y, hy, hyS⟩ := hoperand b (by simp)
    exact stores_denotesIn (power_stores hA hx hy) (Expression.identifiersIn_power.2 ⟨hxS, hyS⟩)
  · next a =>
    -- the exponential function is a power of Euler's number
    obtain ⟨x, hx, hxS⟩ := hoperand a (by simp)
    have hpower : Stores names (do Build.power (← Build.constant .e) a.2) A
        (.power (.constant .e) x) :=
      Yields.bind (intern_stores_of_plain hA rfl rfl rfl) fun _ _ hAB hB he =>
        power_stores hB he (hAB.expression? hx)
    refine stores_denotesIn hpower (Expression.identifiersIn_power.2 ⟨?_, hxS⟩)
    exact Expression.identifiersIn_of_eq_nil (by simp [Expression.identifiers])
  · exact stores_denotesIn (applyCode_stores hA _ hes) (Expression.identifiersIn_apply.2 hall)
  · exact absurd rfl ho
  · split
    · exact stores_denotesIn (matrix_stores hA _ _ hes) (Expression.identifiersIn_matrix.2 hall)
    · exact .throw hA _
  · exact .throw hA _

theorem build_denotesIn (hA : A.Consistent names)
    (hplaceholders : ∀ p ∈ placeholders, DenotesIn S p A)
    (hoperands : ∀ x ∈ operands, DenotesIn S x.2 A) {h : Head} (hh : h.SymbolsIn names S) :
    Yields id (Arena.Consistent names) (h.build placeholders operands) A (DenotesIn S) := by
  cases h with
  | number n => exact plain_denotesIn hA rfl rfl rfl (by simp [Expression.identifiers])
  | symbol name => exact buildSymbol_denotesIn hA hplaceholders hh
  | op o =>
    cases hh with
    | op ho => exact buildOperator_denotesIn hA ho hoperands

end Head

/-- A term with symbols of a class is put together without new ones. -/
theorem Term.build_denotesIn (hA : A.Consistent names) {placeholders : List Handle}
    (hplaceholders : ∀ p ∈ placeholders, DenotesIn S p A) {t : Term}
    (ht : t.HeadsIn (Head.SymbolsIn names S)) :
    Yields id (Arena.Consistent names) (t.build placeholders) A (DenotesIn S) :=
  build_yields_of_heads hA lasting_denotesIn hplaceholders fun c hc _ _ hB hplaceholders hoperands =>
    Head.build_denotesIn hB hplaceholders hoperands (ht c hc)

end Resolvent

/-! ## What canonical forms depend on -/

namespace Resolvent

/-! ### Symbols of unfolded expressions -/

namespace Expression

variable {Δ : Definitions} {mode : Mode} {S : Nat → Prop} {e : Expression}

/-- The identifiers of an unfolded expression are its symbols, since it calls no functions. -/
theorem Unfolded.identifiersIn (h : e.Unfolded S) : e.IdentifiersIn S := by
  induction e using induction_on_operands with
  | h e ih =>
    have hall : ∀ c ∈ e.operands, c.IdentifiersIn S := fun c hc => ih c hc (h.operand hc)
    cases e with
    | symbol id => exact identifiersIn_symbol.2 (h.symbols id .self)
    | sum => exact identifiersIn_sum.2 hall
    | product => exact identifiersIn_product.2 hall
    | apply => exact identifiersIn_apply.2 hall
    | power => exact identifiersIn_power.2 (by simpa [operands] using hall)
    | quotient => exact identifiersIn_quotient.2 (by simpa [operands] using hall)
    | opposite => exact identifiersIn_opposite.2 (by simpa [operands] using hall)
    | call name a => exact absurd .self (h.noCall name a)
    | matrix rows columns es => exact absurd .self (h.noMatrix rows columns es)
    | _ => exact identifiersIn_of_eq_nil (by simp [identifiers])

/-- An expression unfolds to one whose identifiers are symbols that have been met. -/
theorem identifiersIn_of_unfold {t : Expression} (h : e.unfold Δ mode = .ok t) :
    t.IdentifiersIn fun id => ∃ x ∈ e.encounters Δ mode, x.id = id := by
  have hunfolded := unfolded_of_unfold h
  refine Unfolded.identifiersIn ⟨fun id hid => ?_, hunfolded.noCall, hunfolded.noMatrix,
    hunfolded.several⟩
  rcases (traces_unfoldAt maxSubstitutionDepth).origin h hid with hmet | ⟨p, hp, -⟩
  · exact hmet
  · cases hp

/-- All that is listed as met is left as it is by the mode. -/
def KeptAll (Δ : Definitions) (mode : Mode) (met : List Nat → Expression → List Encounter) : Prop :=
  ∀ bound e, ∀ x ∈ met bound e, Kept Δ mode x.id

theorem KeptAll.encountersWith {met : List Nat → Expression → List Encounter}
    (h : KeptAll Δ mode met) : KeptAll Δ mode (encountersWith Δ mode met) := by
  intro bound e
  induction e using induction_on_operands with
  | h e ih =>
    by_cases he : e.isRegular = true
    · rw [encountersWith_of_isRegular met bound he]
      intro x hx
      obtain ⟨c, hc, hx⟩ := List.mem_flatMap.1 hx
      exact ih c hc x hx
    · intro x hx
      cases e with
      | symbol id =>
        rw [Expression.encountersWith, encountersSymbol] at hx
        split at hx
        · cases hx
        · split at hx
          · exact h bound _ x hx
          · next hnone =>
            rw [List.mem_singleton.1 hx]
            exact fun hmode => (if_pos hmode).symm.trans hnone
      | call name a =>
        rw [Expression.encountersWith, encountersCall] at hx
        rcases List.mem_append.1 hx with hx | hx
        · obtain ⟨y, hy, rfl⟩ := List.mem_map.1 hx
          exact ih a List.mem_cons_self y hy
        · split at hx
          · cases hx
          · exact h _ _ x hx
      | matrix => cases hx
      | _ => exact absurd rfl he

/-- A symbol that is met has no value that would be put in its place. -/
theorem kept_of_mem_encounters {x : Encounter} (hx : x ∈ e.encounters Δ mode) :
    Kept Δ mode x.id := by
  have hall : ∀ depth, KeptAll Δ mode (encountersAt Δ mode depth) := by
    intro depth
    induction depth with
    | zero => exact KeptAll.encountersWith nofun
    | succ depth ih => exact ih.encountersWith
  exact hall _ [] e x hx

end Expression

/-! ### Dependencies -/

/-- Of the symbols met, those that a form mentions or that have been met in the argument of a call, in
the order in which they have been met first. -/
def Form.dependencies (met : List Encounter) (f : Form) : List Nat :=
  (addNew [] (met.map Encounter.id)).filter fun id => f.mentions id || met.contains ⟨id, true⟩

theorem Form.mem_dependencies {met : List Encounter} {f : Form} {id : Nat} :
    id ∈ f.dependencies met ↔
      (∃ x ∈ met, x.id = id) ∧ (f.mentions id = true ∨ ⟨id, true⟩ ∈ met) := by
  simp [dependencies, mem_addNew]

namespace Build

open Expression

variable {A : Arena} {names : Symbols} {S : Nat → Prop} {Δ : Definitions} {e : Expression}
  {h : Handle}

/-- Expansion stores an expression without symbols but those met, and gives the symbols met. -/
theorem expand_met (mode : Mode) (hΔ : Δ.IdentifiersIn names.IsNumber) (hA : A.Consistent names)
    (he : e.IdentifiersIn names.IsNumber) :
    Resolvent.Yields id (Arena.Consistent names) (expand Δ mode e) A fun r B =>
      DenotesIn (fun id => ∃ x ∈ e.encounters Δ mode, x.id = id) r.1 B ∧
        r.2.met = addNew [] ((e.encounters Δ mode).map Encounter.id) ∧
          ∀ id, id ∈ r.2.arguments ↔ ⟨id, true⟩ ∈ e.encounters Δ mode := by
  refine expand_yields_of_run (expand_computes mode hΔ hA he {}).yields
    fun k B met hrun ⟨t, ht, hk⟩ => ?_
  exact ⟨⟨t, hk, identifiersIn_of_unfold ht⟩, expand_records mode hΔ hA he hrun⟩

/-- Simplifying functions brings no symbols in. -/
theorem simplifyFunctions_denotesIn {c : Canonizer} (hc : c.simplifier.KeepsHeads)
    (hA : A.Consistent names) (hh : DenotesIn S h A) :
    Resolvent.Yields id (Arena.Consistent names) (simplifyFunctions c.simplify h) A
      (DenotesIn S) := by
  obtain ⟨hheads, hplaceholders⟩ := Arena.symbolsIn_term hA.wellFormed hh
  rw [hA.symbols] at hheads
  exact simplifyFunctions_yields_of_build lasting_denotesIn hA hh
    (Term.build_denotesIn hA hplaceholders (hc.symbolsIn c.moment hheads))

/-- The symbols of a canonical form are those that the expression depends on, and the form has no
others. -/
theorem canonical_depends {c : Canonizer} (hc : c.simplifier.KeepsHeads) (h : Handle)
    (hA : A.WellFormed) :
    Resolvent.Yields id (Arena.Consistent A.symbols) (canonical c h) A fun r _ =>
      r.symbols = r.form.dependencies
          ((A.expression h).encounters (c.context.definitions A) c.mode) ∧
        r.form.SymbolsIn (· ∈ r.symbols) := by
  have hexpand := expand_met c.mode (hA.definitions c.context) ⟨hA, rfl⟩
    (hA.identifiersIn_expression h)
  generalize (A.expression h).encounters (c.context.definitions A) c.mode = met at hexpand ⊢
  refine .get_bind (hexpand.bind fun ⟨expanded, s⟩ B _ hB ⟨hexpanded, hmet, harguments⟩ => ?_)
  refine ((simplifyFunctions_denotesIn hc hB hexpanded).adapt _).bind
    fun simplified C _ hC hsimplified => .get_bind ?_
  have hform : ∀ form, (C.expression simplified).form c.preferences = .ok form →
      form.SymbolsIn fun id => ∃ x ∈ met, x.id = id := fun form =>
    form_symbolsIn hsimplified.identifiersIn
  refine (Yields.ofExcept (Q := fun form _ => form.SymbolsIn fun id => ∃ x ∈ met, x.id = id) hC
    hform).bind fun form D _ hD hform => .pure hD ?_
  have hsymbols : s.met.filter (fun id => form.mentions id || s.arguments.contains id) =
      form.dependencies met := by
    rw [hmet, Form.dependencies]
    refine List.filter_congr fun id _ => ?_
    rw [Bool.eq_iff_iff]
    simp [harguments]
  dsimp only
  rw [hsymbols]
  exact ⟨rfl, fun id hid => Form.mem_dependencies.2 ⟨hform id hid, .inl hid⟩⟩

end Build

end Resolvent

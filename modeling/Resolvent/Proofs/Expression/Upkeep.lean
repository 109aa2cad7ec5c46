import Resolvent.Proofs.Expression.WellFormed

/-!
# Computations that keep arenas well-formed

`Yields` says of a run that it lets the arena grow, keeps an invariant of the state, and gives, if it
succeeds, a result with a property; a sequence of computations yields what its last one yields from
where the others have led (`Yields.bind`).  Storing nodes, terms and expanded expressions keeps an
arena well-formed and gives stored handles, provided that the operands are stored and the symbols
have names.
-/

namespace Resolvent

variable {σ τ ε ε' α β : Type}

/-- Run from `x`, the computation lets the arena that the state shows grow and keeps the invariant,
and the result has a property in the arena behind it. -/
structure Yields (view : σ → Arena) (I : σ → Prop) (m : ExceptT ε (StateM σ) α) (x : σ)
    (Q : α → Arena → Prop) : Prop where
  grows : (view x).GrowsTo (view (m x).2)
  keeps : I (m x).2
  result : ∀ a, (m x).1 = .ok a → Q a (view (m x).2)

/-- The property stays true while the arena grows. -/
def Lasting (Q : α → Arena → Prop) : Prop := ∀ a A B, A.GrowsTo B → Q a A → Q a B

/-- The handle stands for a node of the arena. -/
def Stored (h : Handle) (A : Arena) : Prop := A.contains h = true

theorem lasting_stored : Lasting Stored := fun _ _ _ hAB h => hAB.contains h

namespace Yields

variable {view : σ → Arena} {I : σ → Prop} {x : σ} {Q : α → Arena → Prop} {R : β → Arena → Prop}

theorem pure {a : α} (hx : I x) (ha : Q a (view x)) :
    Yields view I (Pure.pure a : ExceptT ε (StateM σ) α) x Q :=
  ⟨.refl _, hx, fun _ h => Except.ok.inj h ▸ ha⟩

theorem throw (hx : I x) (e : ε) :
    Yields view I (MonadExcept.throw e : ExceptT ε (StateM σ) α) x Q := ⟨.refl _, hx, nofun⟩

theorem bind {m : ExceptT ε (StateM σ) α} {f : α → ExceptT ε (StateM σ) β}
    (hm : Yields view I m x Q)
    (hf : ∀ a y, (view x).GrowsTo (view y) → I y → Q a (view y) → Yields view I (f a) y R) :
    Yields view I (m >>= f) x R := by
  obtain ⟨hgrows, hkeeps, hresult⟩ := hm
  constructor <;> rw [bind_run]
  all_goals rcases hrun : m x with ⟨e | a, y⟩ <;> rw [hrun] at hgrows hkeeps hresult
  · exact hgrows
  · exact hgrows.trans (hf a y hgrows hkeeps (hresult a rfl)).grows
  · exact hkeeps
  · exact (hf a y hgrows hkeeps (hresult a rfl)).keeps
  · exact nofun
  · exact (hf a y hgrows hkeeps (hresult a rfl)).result

theorem imp {Q' : α → Arena → Prop} {m : ExceptT ε (StateM σ) α} (hm : Yields view I m x Q)
    (h : ∀ a A, Q a A → Q' a A) : Yields view I m x Q' :=
  ⟨hm.grows, hm.keeps, fun a ha => h a _ (hm.result a ha)⟩

theorem adapt {m : ExceptT ε (StateM σ) α} (hm : Yields view I m x Q) (f : ε → ε') :
    Yields view I (ExceptT.adapt f m) x Q := by
  refine ⟨hm.grows, hm.keeps, fun a ha => hm.result a ?_⟩
  change (m x).1.mapError f = .ok a at ha
  rcases hr : (m x).1 with e | b <;> rw [hr] at ha
  · cases ha
  · exact congrArg Except.ok (Except.ok.inj ha)

/-- What reads the state first goes on from it. -/
theorem get_bind {f : σ → ExceptT ε (StateM σ) β} (h : Yields view I (f x) x R) :
    Yields view I (getThe σ >>= f) x R := ⟨h.grows, h.keeps, h.result⟩

/-- A result that depends on no state leaves it as it is. -/
theorem ofExcept {r : Except ε α} (hx : I x) (h : ∀ a, r = .ok a → Q a (view x)) :
    Yields view I (liftM r : ExceptT ε (StateM σ) α) x Q := ⟨.refl _, hx, h⟩

theorem mapM {f : α → ExceptT ε (StateM σ) β} (hR : Lasting R) (as : List α) (hx : I x)
    (hf : ∀ a ∈ as, ∀ y, (view x).GrowsTo (view y) → I y → Yields view I (f a) y R) :
    Yields view I (as.mapM f) x fun bs A => ∀ b ∈ bs, R b A := by
  induction as generalizing x with
  | nil => exact pure hx fun _ hb => absurd hb List.not_mem_nil
  | cons a as ih =>
    rw [List.mapM_cons]
    refine (hf a List.mem_cons_self x (.refl _) hx).bind fun b y hxy hy hb => ?_
    refine (ih hy fun c hc z hyz => hf c (List.mem_cons_of_mem _ hc) z (hxy.trans hyz)).bind
      fun bs z hyz hz hbs => pure hz fun c hc => ?_
    rcases List.mem_cons.1 hc with rfl | hc
    · exact hR _ _ _ hyz hb
    · exact hbs c hc

theorem foldlM {f : β → α → ExceptT ε (StateM σ) β} {b : β} (as : List α) (hx : I x)
    (hb : R b (view x))
    (hf : ∀ b, ∀ a ∈ as, ∀ y, (view x).GrowsTo (view y) → I y → R b (view y) →
      Yields view I (f b a) y R) :
    Yields view I (as.foldlM f b) x R := by
  induction as generalizing x b with
  | nil => exact pure hx hb
  | cons a as ih =>
    rw [List.foldlM_cons]
    refine (hf b a List.mem_cons_self x (.refl _) hx hb).bind fun c y hxy hy hc => ?_
    exact ih hy hc fun d a ha z hyz => hf d a (List.mem_cons_of_mem _ ha) z (hxy.trans hyz)

end Yields

/-! ### Storing nodes -/

/-- Nodes as the constructors write them: sums and products have at least two operands, a fraction
is no whole number of 64 bits, and the numbers of symbols and of user functions are words. -/
def Node.Proper : Node → Prop
  | sum args | product args => 2 ≤ args.length
  | fraction q => ∀ n : Int, Width.isInt64 n = true → q ≠ n
  | symbol id | call id _ => id ≤ Symbols.maxId
  | _ => True

/-- An invariant that the constructors uphold: the index leads to stored nodes, and neither a new
proper node over stored operands nor a name breaks it. -/
class Arena.Upheld (I : Arena → Prop) : Prop where
  contains : ∀ {A : Arena} {n : Node} {h : Handle}, I A → A.index[n]? = some h → Stored h A
  push : ∀ {A : Arena} {n : Node}, I A → A.Admits n → n.Proper → A.index[n]? = none →
    A.nodes.size < A.limit →
      I { A with nodes := A.nodes.push n, index := A.index.insert n ⟨A.nodes.size⟩ }
  internSymbol : ∀ {A : Arena} (name : String), I A →
    I { A with symbols := (A.symbols.intern name).2 }

instance : Arena.Upheld Arena.WellFormed where
  contains hA hindex := Arena.contains_of_node? (hA.node_index _ _ hindex)
  push hA hn _ hnew _ := hA.push hn hnew
  internSymbol name hA := hA.internSymbol name

instance : Arena.Upheld Arena.Indexed where
  contains hA hindex := Arena.contains_of_node? ((hA _ _).1 hindex)
  push hA _ _ hnew _ := hA.push hnew
  internSymbol _ hA := hA

namespace Build

/-- Run in a well-formed arena, the computation leaves one that it has grown to, and the result has
a property there. -/
abbrev Yields (m : BuildT ε α) (A : Arena) (Q : α → Arena → Prop) : Prop :=
  Resolvent.Yields id Arena.WellFormed m A Q

variable {A : Arena} {n : Node} {a b h : Handle} {hs : List Handle} {I : Arena → Prop}

/-- Storing a node keeps what holds with the node at hand and, if it is new, with the node behind the
others. -/
theorem intern_yields_of_push (hA : I A) (hindex : ∀ h, A.index[n]? = some h → Stored h A)
    (hpush : A.index[n]? = none → A.nodes.size < A.limit →
      I { A with nodes := A.nodes.push n, index := A.index.insert n ⟨A.nodes.size⟩ }) :
    Resolvent.Yields id I (intern n) A Stored := by
  refine ⟨intern_grows n A, ?_, fun h hh => ?_⟩
  · rw [intern_run]
    split
    · exact hA
    · next hnew =>
      split
      · next hroom => exact hpush hnew hroom
      · exact hA
  · rw [intern_run] at hh ⊢
    split at hh
    · next hfound =>
      cases hh
      exact hindex _ hfound
    · split at hh
      · next hroom =>
        cases hh
        exact Arena.contains_iff.2 (by simp [hroom])
      · cases hh

theorem intern_yields (hA : A.WellFormed) (hn : A.Admits n) : Yields (intern n) A Stored :=
  intern_yields_of_push hA (fun _ => Arena.Upheld.contains hA) fun hnew _ => hA.push hn hnew

/-- A node without operands and names may always be stored. -/
theorem intern_yields_of_plain (hA : A.WellFormed) (hchildren : n.children = [])
    (hname : n.name? = none) : Yields (intern n) A Stored :=
  intern_yields hA ⟨by simp [hchildren], by simp [hname]⟩

/-- A node without a name of its own may be stored if its operands are. -/
theorem intern_yields_of_operands (hA : A.WellFormed) (hname : n.name? = none)
    (h : ∀ c ∈ n.children, Stored c A) : Yields (intern n) A Stored :=
  intern_yields hA ⟨h, by simp [hname]⟩

section Constructors

variable [Arena.Upheld I]

theorem intern_yields_of_proper (hA : I A) (hn : A.Admits n) (hproper : n.Proper) :
    Resolvent.Yields id I (intern n) A Stored :=
  intern_yields_of_push hA (fun _ => Arena.Upheld.contains hA) (Arena.Upheld.push hA hn hproper)

theorem internSymbol_yields (hA : I A) (name : String) :
    Resolvent.Yields id I (internSymbol name) A fun id B => B.Named id :=
  ⟨internSymbol_grows name A, Arena.Upheld.internSymbol name hA,
    fun _ h => Except.ok.inj h ▸ A.named_intern name⟩

theorem integer_yields (hA : I A) (k : Int) : Resolvent.Yields id I (integer k) A Stored :=
  intern_yields_of_proper hA ⟨nofun, nofun⟩ trivial

theorem rational_yields (hA : I A) (q : Rat) : Resolvent.Yields id I (rational q) A Stored := by
  unfold rational
  split
  · exact integer_yields hA _
  · next hnone =>
    refine intern_yields_of_proper hA ⟨nofun, nofun⟩ fun k hk hq => ?_
    -- a whole number of 64 bits would have been written as one
    simp [Rational.toInt64?, Rational.toInteger?, hq, hk] at hnone

theorem float_yields (hA : I A) (x : Float) : Resolvent.Yields id I (float x) A Stored :=
  intern_yields_of_proper hA ⟨nofun, nofun⟩ trivial

theorem symbol_yields (hA : I A) (name : String) :
    Resolvent.Yields id I (symbol name) A Stored :=
  (internSymbol_yields hA name).bind fun _ _ _ hB hid =>
    intern_yields_of_proper hB ⟨nofun, fun _ h => Option.some.inj h ▸ hid⟩ hid.2

theorem constant_yields (hA : I A) (c : Constant) :
    Resolvent.Yields id I (constant c) A Stored :=
  intern_yields_of_proper hA ⟨nofun, nofun⟩ trivial

theorem undefined_yields (hA : I A) : Resolvent.Yields id I undefined A Stored :=
  intern_yields_of_proper hA ⟨nofun, nofun⟩ trivial

theorem unreal_yields (hA : I A) : Resolvent.Yields id I unreal A Stored :=
  intern_yields_of_proper hA ⟨nofun, nofun⟩ trivial

theorem sum_yields (hA : I A) (h : ∀ c ∈ hs, Stored c A) :
    Resolvent.Yields id I (sum hs) A Stored := by
  match hs with
  | [] => exact integer_yields hA 0
  | [_] => exact .pure hA (h _ List.mem_cons_self)
  | _ :: _ :: _ => exact intern_yields_of_proper hA ⟨h, nofun⟩ (Nat.le_add_left 2 _)

theorem product_yields (hA : I A) (h : ∀ c ∈ hs, Stored c A) :
    Resolvent.Yields id I (product hs) A Stored := by
  match hs with
  | [] => exact integer_yields hA 1
  | [_] => exact .pure hA (h _ List.mem_cons_self)
  | _ :: _ :: _ => exact intern_yields_of_proper hA ⟨h, nofun⟩ (Nat.le_add_left 2 _)

theorem opposite_yields (hA : I A) (h : Stored a A) :
    Resolvent.Yields id I (opposite a) A Stored :=
  intern_yields_of_proper hA ⟨List.forall_mem_singleton.2 h, nofun⟩ trivial

theorem power_yields (hA : I A) (ha : Stored a A) (hb : Stored b A) :
    Resolvent.Yields id I (power a b) A Stored :=
  intern_yields_of_proper hA
    ⟨List.forall_mem_cons.2 ⟨ha, List.forall_mem_singleton.2 hb⟩, nofun⟩ trivial

theorem quotient_yields (hA : I A) (ha : Stored a A) (hb : Stored b A) :
    Resolvent.Yields id I (quotient a b) A Stored :=
  intern_yields_of_proper hA
    ⟨List.forall_mem_cons.2 ⟨ha, List.forall_mem_singleton.2 hb⟩, nofun⟩ trivial

theorem difference_yields (hA : I A) (ha : Stored a A) (hb : Stored b A) :
    Resolvent.Yields id I (difference a b) A Stored :=
  (opposite_yields hA hb).bind fun _ _ hAB hB hnegated =>
    sum_yields hB (List.forall_mem_cons.2
      ⟨lasting_stored _ _ _ hAB ha, List.forall_mem_singleton.2 hnegated⟩)

theorem applyCode_yields (hA : I A) (code : Nat) (h : ∀ c ∈ hs, Stored c A) :
    Resolvent.Yields id I (applyCode code hs) A Stored :=
  intern_yields_of_proper hA ⟨h, nofun⟩ trivial

theorem call_yields (hA : I A) (name : String) (h : Stored a A) :
    Resolvent.Yields id I (call name a) A Stored :=
  (internSymbol_yields hA name).bind fun _ _ hAB hB hid =>
    intern_yields_of_proper hB ⟨List.forall_mem_singleton.2 (lasting_stored _ _ _ hAB h),
      fun _ h => Option.some.inj h ▸ hid⟩ hid.2

theorem matrix_yields (hA : I A) (rows columns : Nat) (h : ∀ c ∈ hs, Stored c A) :
    Resolvent.Yields id I (matrix rows columns hs) A Stored :=
  intern_yields_of_proper hA ⟨h, nofun⟩ trivial

end Constructors

/-! ### Storing expressions -/

-- the identifiers of an expression are those of its parts, and what is named keeps its name
mutual

theorem store_yields : ∀ {A : Arena} {e : Expression}, A.WellFormed → e.IdentifiersIn A.Named →
    Yields (store e) A Stored
  | _, .integer _, hA, _ | _, .fraction _, hA, _ | _, .float _, hA, _ | _, .constant _, hA, _
  | _, .undefined, hA, _ | _, .unreal, hA, _ => intern_yields_of_plain hA rfl rfl
  | _, .symbol _, hA, he =>
    intern_yields hA ⟨nofun, fun _ h => Option.some.inj h ▸ Expression.identifiersIn_symbol.1 he⟩
  | _, .sum _, hA, he =>
    (storeAll_yields hA (Expression.identifiersIn_sum.1 he)).bind fun _ _ _ hB hs =>
      intern_yields_of_operands hB rfl hs
  | _, .product _, hA, he =>
    (storeAll_yields hA (Expression.identifiersIn_product.1 he)).bind fun _ _ _ hB hs =>
      intern_yields_of_operands hB rfl hs
  | _, .apply _ _, hA, he =>
    (storeAll_yields hA (Expression.identifiersIn_apply.1 he)).bind fun _ _ _ hB hs =>
      intern_yields_of_operands hB rfl hs
  | _, .matrix _ _ _, hA, he =>
    (storeAll_yields hA (Expression.identifiersIn_matrix.1 he)).bind fun _ _ _ hB hs =>
      intern_yields_of_operands hB rfl hs
  | _, .opposite _, hA, he =>
    (store_yields hA (Expression.identifiersIn_opposite.1 he)).bind fun _ _ _ hB h =>
      opposite_yields hB h
  | _, .call _ _, hA, he =>
    have ⟨hid, he⟩ := Expression.identifiersIn_call.1 he
    (store_yields hA he).bind fun _ _ hAB hB h =>
      intern_yields hB ⟨List.forall_mem_singleton.2 h, fun _ h => Option.some.inj h ▸ hAB.named hid⟩
  | _, .power _ _, hA, he =>
    have ⟨ha, hb⟩ := Expression.identifiersIn_power.1 he
    (store_yields hA ha).bind fun _ _ hAB hB ha =>
      (store_yields hB (hAB.identifiersIn hb)).bind fun _ _ hBC hC hb =>
        power_yields hC (lasting_stored _ _ _ hBC ha) hb
  | _, .quotient _ _, hA, he =>
    have ⟨ha, hb⟩ := Expression.identifiersIn_quotient.1 he
    (store_yields hA ha).bind fun _ _ hAB hB ha =>
      (store_yields hB (hAB.identifiersIn hb)).bind fun _ _ hBC hC hb =>
        quotient_yields hC (lasting_stored _ _ _ hBC ha) hb

theorem storeAll_yields : ∀ {A : Arena} {es : List Expression}, A.WellFormed →
    (∀ e ∈ es, e.IdentifiersIn A.Named) → Yields (storeAll es) A fun hs B => ∀ h ∈ hs, Stored h B
  | _, [], hA, _ => .pure hA (List.forall_mem_nil _)
  | _, _ :: _, hA, he =>
    have ⟨he, hes⟩ := List.forall_mem_cons.1 he
    (store_yields hA he).bind fun _ _ hAB hB h =>
      (storeAll_yields hB fun e he => hAB.identifiersIn (hes e he)).bind fun _ _ hBC hC hs =>
        .pure hC (List.forall_mem_cons.2 ⟨lasting_stored _ _ _ hBC h, hs⟩)

end

end Build

/-! ### Storing terms -/

namespace Head

open Build

variable {I : Arena → Prop} [Arena.Upheld I] {A : Arena} {placeholders : List Handle}
  {operands : List (Head × Handle)}

theorem buildSymbol_yields (hA : I A) (hplaceholders : ∀ h ∈ placeholders, Stored h A)
    (name : String) : Resolvent.Yields id I (buildSymbol placeholders name) A Stored := by
  unfold buildSymbol
  split
  · split
    · next hk =>
      obtain ⟨k, -, hk⟩ := Option.bind_eq_some_iff.1 hk
      exact .pure hA (hplaceholders _ (List.mem_of_getElem? hk))
    · exact .throw hA _
  · repeat' split
    all_goals
      first
        | exact .throw hA _
        | exact (constant_yields hA _).adapt _
        | exact (undefined_yields hA).adapt _
        | exact (unreal_yields hA).adapt _
        | exact (rational_yields hA _).adapt _
        | exact (symbol_yields hA _).adapt _

theorem buildOperator_yields (hA : I A) (o : Operator)
    (h : ∀ x ∈ operands, Stored x.2 A) :
    Resolvent.Yields id I (buildOperator o operands) A Stored := by
  have hmap : ∀ c ∈ operands.map Prod.snd, Stored c A := List.forall_mem_map.2 h
  unfold buildOperator
  split
  · exact (sum_yields hA hmap).adapt _
  · exact (difference_yields hA (hmap _ (by simp)) (hmap _ (by simp))).adapt _
  · exact (product_yields hA hmap).adapt _
  · exact (quotient_yields hA (hmap _ (by simp)) (hmap _ (by simp))).adapt _
  · exact (opposite_yields hA (hmap _ (by simp))).adapt _
  · exact (power_yields hA (hmap _ (by simp)) (hmap _ (by simp))).adapt _
  · refine Yields.adapt (Yields.bind (constant_yields hA _) ?_) _
    intro e B hAB hB he
    exact power_yields hB he (lasting_stored _ _ _ hAB (hmap _ (by simp)))
  · exact (applyCode_yields hA _ hmap).adapt _
  · split
    · split
      · exact (call_yields hA _ (hmap _ (by simp))).adapt _
      · exact .throw hA _
    · exact .throw hA _
  · split
    · exact (matrix_yields hA _ _ hmap).adapt _
    · exact .throw hA _
  · exact .throw hA _

theorem build_yields (hA : I A) (hplaceholders : ∀ h ∈ placeholders, Stored h A)
    (hoperands : ∀ x ∈ operands, Stored x.2 A) (h : Head) :
    Resolvent.Yields id I (h.build placeholders operands) A Stored := by
  cases h with
  | number n => exact (integer_yields hA n).adapt _
  | symbol name => exact buildSymbol_yields hA hplaceholders name
  | op o => exact buildOperator_yields hA o hoperands

end Head

/-- Storing a term gives a handle with a property, if the placeholders have it and each head hands it
on from its operands. -/
theorem Term.build_yields_of_heads {I : Arena → Prop} {A : Arena} (hA : I A)
    {Q : Handle → Arena → Prop} (hQ : Lasting Q) {placeholders : List Handle}
    (h : ∀ p ∈ placeholders, Q p A) {t : Term}
    (hheads : ∀ c ∈ t.cells, ∀ (B : Arena) (operands : List (Head × Handle)), I B →
      (∀ p ∈ placeholders, Q p B) → (∀ x ∈ operands, Q x.2 B) →
      Resolvent.Yields id I (c.head.build placeholders operands) B Q) :
    Resolvent.Yields id I (t.build placeholders) A Q := by
  unfold Term.build
  rw [← Array.foldlM_toList]
  refine Yields.bind (Q := fun built B => ∀ x ∈ built, Q x.2 B) ?_
    fun built B hAB hB hbuilt => ?_
  · refine Yields.foldlM _ hA (by simp) fun built c hc B hAB hB hbuilt => ?_
    -- the operands of a cell are among those that were built before
    have hoperands : ∀ x ∈ c.operands.filterMap fun i => built[i]?, Q x.2 B := by
      intro x hx
      obtain ⟨i, -, hi⟩ := List.mem_filterMap.1 hx
      exact hbuilt x (Array.mem_of_getElem? hi)
    have hplaceholders : ∀ p ∈ placeholders, Q p B := fun p hp => hQ _ _ _ hAB (h p hp)
    have hhead := hheads c (Array.mem_toList_iff.1 hc) B _ hB hplaceholders hoperands
    refine hhead.bind fun k C hBC hC hk => .pure hC ?_
    intro x hx
    rcases Array.mem_push.1 hx with hx | rfl
    · exact hQ _ _ _ hBC (hbuilt x hx)
    · exact hk
  · split
    · next hback => exact .pure hB (hbuilt _ (Array.mem_of_back? hback))
    · exact .throw hB _

/-- Storing a term gives a stored handle, if the placeholders are stored. -/
theorem Term.build_yields {I : Arena → Prop} [Arena.Upheld I] {A : Arena} (hA : I A)
    {placeholders : List Handle}
    (h : ∀ p ∈ placeholders, Stored p A) (t : Term) :
    Resolvent.Yields id I (t.build placeholders) A Stored :=
  Term.build_yields_of_heads hA lasting_stored h fun c _ _ _ hB hplaceholders hoperands =>
    Head.build_yields hB hplaceholders hoperands c.head

theorem Build.ofText_yields {I : Arena → Prop} [Arena.Upheld I] {A : Arena} (hA : I A)
    (read : Term.Reader) (text : String) :
    Resolvent.Yields id I (Build.ofText read text) A Stored := by
  unfold ofText
  split
  · exact Term.build_yields hA (List.forall_mem_nil _) _
  · exact .throw hA _

/-! ### Expansion -/

/-- The identifiers of all values and bodies are in a class. -/
structure Definitions.IdentifiersIn (S : Nat → Prop) (Δ : Definitions) : Prop where
  value : ∀ id e, Δ.value? id = some e → e.IdentifiersIn S
  body : ∀ id d, Δ.function? id = some d → d.2.IdentifiersIn S

theorem Arena.WellFormed.definitions {A : Arena} (hA : A.WellFormed) (Γ : Context Handle) :
    (Γ.definitions A).IdentifiersIn A.Named where
  value id e he := by
    obtain ⟨name, -, he⟩ := Option.bind_eq_some_iff.1 he
    obtain ⟨h, -, rfl⟩ := Option.map_eq_some_iff.1 he
    exact hA.identifiersIn_expression h
  body id d hd := by
    obtain ⟨name, -, hd⟩ := Option.bind_eq_some_iff.1 hd
    obtain ⟨h, -, rfl⟩ := Option.map_eq_some_iff.1 hd
    exact hA.identifiersIn_expression h.2

namespace ExpandM

/-- Run from a well-formed arena, the computation leaves one that it has grown to, and the result
has a property there. -/
abbrev Yields (m : ExpandM α) (x : Arena × Encounters) (Q : α → Arena → Prop) : Prop :=
  Resolvent.Yields Prod.fst (fun x => x.1.WellFormed) m x Q

theorem throw_yields {x : Arena × Encounters} {Q : α → Arena → Prop} (hx : x.1.WellFormed)
    (e : CanonicalError) : Yields (throw e) x Q :=
  Yields.throw (I := fun x : Arena × Encounters => x.1.WellFormed) hx e

theorem build_yields {m : Build Handle} {x : Arena × Encounters} {Q : Handle → Arena → Prop}
    (hm : Build.Yields m x.1 Q) : Yields (build m) x Q := by
  obtain ⟨A, s⟩ := x
  obtain ⟨hgrows, hkeeps, hresult⟩ := hm
  constructor <;> unfold build <;> dsimp only
  all_goals rcases hrun : m A with ⟨e | h, B⟩ <;> rw [hrun] at hgrows hkeeps hresult
  · exact hgrows
  · exact hgrows
  · exact hkeeps
  · exact hkeeps
  · exact nofun
  · exact fun a ha => Except.ok.inj ha ▸ hresult h rfl

end ExpandM

namespace Expression

variable {Δ : Definitions} {mode : Mode}

/-- An expansion may begin: the arena is well-formed, and what definitions and parameters stand for
belongs to it. -/
structure Ready (Δ : Definitions) (scope : Parameters) (A : Arena) : Prop where
  wellFormed : A.WellFormed
  definitions : Δ.IdentifiersIn A.Named
  scope : ∀ p ∈ scope, Stored p.2 A

theorem Ready.grow {scope : Parameters} {A B : Arena} (h : Ready Δ scope A) (hAB : A.GrowsTo B)
    (hB : B.WellFormed) : Ready Δ scope B where
  wellFormed := hB
  definitions := ⟨fun id e he => hAB.identifiersIn (h.definitions.value id e he),
    fun id d hd => hAB.identifiersIn (h.definitions.body id d hd)⟩
  scope p hp := lasting_stored _ _ _ hAB (h.scope p hp)

/-- The function expands expressions that belong to a well-formed arena. -/
def Expands (Δ : Definitions) (expand : Parameters → Expression → ExpandM Handle) : Prop :=
  ∀ scope e x, Ready Δ scope x.1 → e.IdentifiersIn x.1.Named →
    ExpandM.Yields (expand scope e) x Stored

variable {nested : Parameters → Expression → ExpandM Handle} {scope : Parameters}
  {x : Arena × Encounters}

theorem expandSymbol_yields (hnested : Expands Δ nested) (hx : Ready Δ scope x.1) {id : Nat}
    (hid : x.1.Named id) : ExpandM.Yields (expandSymbol Δ mode nested scope id) x Stored := by
  unfold expandSymbol
  split
  · next h hlookup =>
    obtain ⟨before, after, hscope, -⟩ := List.lookup_eq_some_iff.1 hlookup
    exact .pure hx.wellFormed (hx.scope (id, h) (by simp [hscope]))
  · split
    · next value hvalue =>
      refine hnested scope value x hx (hx.definitions.value id value ?_)
      split at hvalue
      · exact hvalue
      · cases hvalue
    · refine Yields.bind (Q := fun _ _ => True) ⟨.refl _, hx.wellFormed, fun _ _ => trivial⟩ ?_
      intro _ y hxy hy _
      exact ExpandM.build_yields (Build.intern_yields hy
        ⟨nofun, fun _ h => Option.some.inj h ▸ hxy.named hid⟩)

theorem expandCall_yields (hnested : Expands Δ nested) (hx : Ready Δ scope x.1) (name : Nat)
    {argument : Handle} (hargument : Stored argument x.1) :
    ExpandM.Yields (expandCall Δ nested scope name argument) x Stored := by
  refine Yields.bind (Q := fun _ _ => True) ⟨.refl _, hx.wellFormed, fun _ _ => trivial⟩ ?_
  intro _ y hxy hy _
  have hready := hx.grow hxy hy
  split
  · exact ExpandM.throw_yields hy _
  · next hbody =>
    refine hnested _ _ y ⟨hy, hready.definitions, ?_⟩ (hready.definitions.body _ _ hbody)
    exact List.forall_mem_cons.2 ⟨lasting_stored _ _ _ hxy hargument, hready.scope⟩
  · next hbody => exact hnested _ _ y hready (hready.definitions.body _ _ hbody)

-- what a definition stands for is expanded by `nested`, so the induction is on the expression alone
mutual

theorem expandWith_yields (hnested : Expands Δ nested) :
    ∀ {x : Arena × Encounters} {e : Expression}, Ready Δ scope x.1 →
    e.IdentifiersIn x.1.Named → ExpandM.Yields (expandWith Δ mode nested scope e) x Stored
  | _, integer _, hx, _ | _, fraction _, hx, _ | _, float _, hx, _ | _, constant _, hx, _
  | _, undefined, hx, _ | _, unreal, hx, _ =>
    ExpandM.build_yields (Build.intern_yields_of_plain hx.wellFormed rfl rfl)
  | _, symbol _, hx, he => expandSymbol_yields hnested hx (identifiersIn_symbol.1 he)
  | _, sum _, hx, he =>
    (expandAllWith_yields hnested hx (identifiersIn_sum.1 he)).bind fun _ _ _ hy hs =>
      ExpandM.build_yields (Build.sum_yields hy hs)
  | _, product _, hx, he =>
    (expandAllWith_yields hnested hx (identifiersIn_product.1 he)).bind fun _ _ _ hy hs =>
      ExpandM.build_yields (Build.product_yields hy hs)
  | _, power _ _, hx, he =>
    have ⟨ha, hb⟩ := identifiersIn_power.1 he
    (expandWith_yields hnested hx ha).bind fun _ _ hxy hy ha =>
      (expandWith_yields hnested (hx.grow hxy hy) (hxy.identifiersIn hb)).bind fun _ _ hyz hz hb =>
        ExpandM.build_yields (Build.power_yields hz (lasting_stored _ _ _ hyz ha) hb)
  | _, quotient _ _, hx, he =>
    have ⟨ha, hb⟩ := identifiersIn_quotient.1 he
    (expandWith_yields hnested hx ha).bind fun _ _ hxy hy ha =>
      (expandWith_yields hnested (hx.grow hxy hy) (hxy.identifiersIn hb)).bind fun _ _ hyz hz hb =>
        ExpandM.build_yields (Build.quotient_yields hz (lasting_stored _ _ _ hyz ha) hb)
  | _, opposite _, hx, he =>
    (expandWith_yields hnested hx (identifiersIn_opposite.1 he)).bind fun _ _ _ hy h =>
      ExpandM.build_yields (Build.opposite_yields hy h)
  | _, apply code _, hx, he =>
    (expandAllWith_yields hnested hx (identifiersIn_apply.1 he)).bind fun _ _ _ hy hs =>
      ExpandM.build_yields (Build.applyCode_yields hy code hs)
  | _, call name _, hx, he =>
    (expandWith_yields hnested hx (identifiersIn_call.1 he).2).bind fun _ _ hxy hy h =>
      expandCall_yields hnested (hx.grow hxy hy) name h
  | _, matrix _ _ _, hx, _ => ExpandM.throw_yields hx.wellFormed _

theorem expandAllWith_yields (hnested : Expands Δ nested) :
    ∀ {x : Arena × Encounters} {es : List Expression},
    Ready Δ scope x.1 → (∀ e ∈ es, e.IdentifiersIn x.1.Named) →
      ExpandM.Yields (expandAllWith Δ mode nested scope es) x fun hs A => ∀ h ∈ hs, Stored h A
  | _, [], hx, _ => .pure hx.wellFormed (List.forall_mem_nil _)
  | _, _ :: _, hx, he =>
    have ⟨he, hes⟩ := List.forall_mem_cons.1 he
    (expandWith_yields hnested hx he).bind fun _ _ hxy hy h =>
      (expandAllWith_yields hnested (hx.grow hxy hy) fun e he => hxy.identifiersIn (hes e he)).bind
        fun _ _ hyz hz hs =>
          .pure hz (List.forall_mem_cons.2 ⟨lasting_stored _ _ _ hyz h, hs⟩)

end

theorem expandAt_expands (depth : Nat) : Expands Δ (expandAt Δ mode depth) := by
  induction depth with
  | zero =>
    have hthrow : Expands Δ fun _ _ => throw .undefined := fun _ _ _ hy _ =>
      ExpandM.throw_yields hy.wellFormed _
    exact fun scope e x hx he => expandWith_yields hthrow hx he
  | succ depth ih => exact fun scope e x hx he => expandWith_yields ih hx he

/-- Expanding an expression of a well-formed arena gives a stored handle. -/
theorem expand_yields {A : Arena} (hA : A.WellFormed) (hΔ : Δ.IdentifiersIn A.Named) (mode : Mode)
    {e : Expression} (he : e.IdentifiersIn A.Named) (s : Encounters) :
    ExpandM.Yields (e.expand Δ mode) (A, s) Stored :=
  expandAt_expands _ [] e (A, s) ⟨hA, hΔ, List.forall_mem_nil _⟩ he

end Expression

end Resolvent

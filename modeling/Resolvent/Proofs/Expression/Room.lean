import Resolvent.Proofs.Expression.Growth
import Resolvent.Term.OfArena

/-!
# Computations with more room

What is stored in an arena can be stored in one with a greater limit, and it gets the same handles
there.  A computation is steady if it either ends because the arena is full or does the same in an
arena with more room (`Steady`): the same result, and an arena that is the same but for the limit
(`Arena.Wider`).  Reading an arena does not depend on its limit, and everything that stores nodes is
steady, because a full arena ends it at once: the constructors, terms that are read or rewritten, and
expanded expressions.
-/

namespace Resolvent

variable {σ τ ε ε' α β : Type}

/-! ### Steady computations -/

/-- Run from `x`, the computation ends with an error that says that the arena is full, or it does the
same from each related state, and the runs end in related states. -/
def SteadyAt (R : σ → σ → Prop) (full : ε → Prop) (m : ExceptT ε (StateM σ) α) (x : σ) : Prop :=
  ∀ y, R x y → (∃ e, full e ∧ (m x).1 = .error e) ∨ (m x).1 = (m y).1 ∧ R (m x).2 (m y).2

/-- The computation is steady wherever it is run. -/
abbrev Steady (R : σ → σ → Prop) (full : ε → Prop) (m : ExceptT ε (StateM σ) α) : Prop :=
  ∀ x, SteadyAt R full m x

namespace SteadyAt

variable {R : σ → σ → Prop} {full : ε → Prop} {x : σ}

/-- What two runs from related states come to. -/
theorem runs {m : ExceptT ε (StateM σ) α} (hm : SteadyAt R full m x) {y x' y' : σ}
    {r r' : Except ε α} (hx : m x = (r, x')) (hy : m y = (r', y')) (hxy : R x y) :
    (∃ e, full e ∧ r = .error e) ∨ r = r' ∧ R x' y' := by
  have hrun := hm y hxy
  rwa [hx, hy] at hrun

theorem pure (a : α) : SteadyAt R full (Pure.pure a : ExceptT ε (StateM σ) α) x :=
  fun _ hxy => .inr ⟨rfl, hxy⟩

theorem throw (e : ε) : SteadyAt R full (MonadExcept.throw e : ExceptT ε (StateM σ) α) x :=
  fun _ hxy => .inr ⟨rfl, hxy⟩

/-- A result that depends on no state is the same everywhere. -/
theorem ofExcept (r : Except ε α) : SteadyAt R full (liftM r : ExceptT ε (StateM σ) α) x :=
  fun _ hxy => .inr ⟨rfl, hxy⟩

theorem bind {m : ExceptT ε (StateM σ) α} {f : α → ExceptT ε (StateM σ) β}
    (hm : SteadyAt R full m x) (hf : ∀ a y, m x = (.ok a, y) → SteadyAt R full (f a) y) :
    SteadyAt R full (m >>= f) x := by
  intro y hxy
  rw [bind_run, bind_run]
  rcases hx : m x with ⟨r, x'⟩
  rcases hy : m y with ⟨r', y'⟩
  rcases hm.runs hx hy hxy with ⟨e, he, rfl⟩ | ⟨rfl, hrelated⟩
  · exact .inl ⟨e, he, rfl⟩
  · -- the second computation is run only if the first one succeeds
    cases r with
    | error e => exact .inr ⟨rfl, hrelated⟩
    | ok a => exact hf a x' hx y' hrelated

theorem adapt {full' : ε' → Prop} {m : ExceptT ε (StateM σ) α} {f : ε → ε'}
    (hm : SteadyAt R full m x) (hf : ∀ e, full e → full' (f e)) :
    SteadyAt R full' (ExceptT.adapt f m) x := by
  intro y hxy
  rw [adapt_run, adapt_run]
  rcases hm y hxy with ⟨e, he, heq⟩ | ⟨heq, hrelated⟩
  · exact .inl ⟨f e, hf e he, by rw [heq]; rfl⟩
  · exact .inr ⟨by rw [heq], hrelated⟩

/-- What is read of the state may depend on what related states have in common only. -/
theorem get_bind {f : σ → ExceptT ε (StateM σ) β} (hf : ∀ y, R x y → f y = f x)
    (hx : SteadyAt R full (f x) x) : SteadyAt R full (getThe σ >>= f) x := by
  intro y hxy
  rw [bind_run, bind_run, getThe_run, getThe_run]
  dsimp only
  rw [hf y hxy]
  exact hx y hxy

end SteadyAt

namespace Steady

variable {R : σ → σ → Prop} {full : ε → Prop}

theorem bind {m : ExceptT ε (StateM σ) α} {f : α → ExceptT ε (StateM σ) β} (hm : Steady R full m)
    (hf : ∀ a, Steady R full (f a)) : Steady R full (m >>= f) := fun x =>
  (hm x).bind fun a y _ => hf a y

theorem pure (a : α) : Steady R full (Pure.pure a : ExceptT ε (StateM σ) α) := fun _ => .pure a

theorem throw (e : ε) : Steady R full (MonadExcept.throw e : ExceptT ε (StateM σ) α) :=
  fun _ => .throw e

theorem mapM {f : α → ExceptT ε (StateM σ) β} (hf : ∀ a, Steady R full (f a)) (as : List α) :
    Steady R full (as.mapM f) := by
  induction as with
  | nil => exact .pure _
  | cons a as ih =>
    rw [List.mapM_cons]
    exact (hf a).bind fun b => ih.bind fun bs => .pure _

theorem foldlM {f : β → α → ExceptT ε (StateM σ) β} (hf : ∀ b a, Steady R full (f b a)) (b : β)
    (as : List α) : Steady R full (as.foldlM f b) := by
  induction as generalizing b with
  | nil => exact .pure _
  | cons a as ih =>
    rw [List.foldlM_cons]
    exact (hf b a).bind ih

end Steady

/-! ### Arenas with more room -/

namespace Arena

/-- The second arena has the nodes and names of the first, and room for at least as many. -/
def Wider (A B : Arena) : Prop := ∃ limit, A.limit ≤ limit ∧ B = { A with limit }

namespace Wider

variable {A B : Arena} (hAB : A.Wider B)

include hAB

theorem read?_eq (depth : Nat) (h : Handle) : B.read? depth h = A.read? depth h := by
  obtain ⟨limit, -, rfl⟩ := hAB
  induction depth generalizing h with
  | zero => rfl
  | succ depth ih =>
    have hread : Arena.read? { A with limit } depth = A.read? depth := funext ih
    rw [read?_succ, read?_succ, hread]
    rfl

theorem expression_eq : B.expression = A.expression := by
  funext h
  have hread := hAB.read?_eq A.nodes.size h
  obtain ⟨limit, -, rfl⟩ := hAB
  exact congrArg (Option.getD · .undefined) hread

theorem text_eq (h : Handle) : B.text h = A.text h := by
  rw [text, text, hAB.expression_eq]
  obtain ⟨limit, -, rfl⟩ := hAB
  rfl

theorem definitions_eq (Γ : Context Handle) : Γ.definitions B = Γ.definitions A := by
  rw [Context.definitions, Context.definitions, hAB.expression_eq]
  obtain ⟨limit, -, rfl⟩ := hAB
  rfl

theorem pushExpression_eq (depth : Nat) :
    Lowering.pushExpression B depth = Lowering.pushExpression A depth := by
  obtain ⟨limit, -, rfl⟩ := hAB
  induction depth with
  | zero => rfl
  | succ depth ih =>
    have hnode : ∀ h n, Lowering.pushNode { A with limit } (Lowering.pushExpression A depth) h n =
        Lowering.pushNode A (Lowering.pushExpression A depth) h n := by
      intro h n
      cases n <;> rfl
    funext h
    unfold Lowering.pushExpression
    rw [ih]
    simp only [hnode]
    rfl

theorem term_eq (h : Handle) : B.term h = A.term h := by
  have hpush := hAB.pushExpression_eq A.nodes.size
  obtain ⟨limit, -, rfl⟩ := hAB
  unfold term
  rw [hpush]

end Wider

end Arena

/-! ### Storing nodes -/

/-- Related arenas read alike, and storing a node in one or the other is the same unless the first
one is full. -/
class Arena.Alike (R : Arena → Arena → Prop) : Prop where
  expression_eq : ∀ {A B : Arena}, R A B → B.expression = A.expression
  intern_steady : ∀ n, Steady R (fun _ => True) (Build.intern n)

namespace Build

/-- The computation is steady, and whenever it fails, the arena is full. -/
abbrev SteadyIn (R : Arena → Arena → Prop) (m : Build α) : Prop :=
  Resolvent.Steady R (fun _ => True) m

/-- The computation is steady, and whenever it fails, the arena is full. -/
abbrev Steady (m : Build α) : Prop := SteadyIn Arena.Wider m

instance : Arena.Alike Arena.Wider where
  expression_eq := Arena.Wider.expression_eq
  intern_steady n := by
    rintro A _ ⟨limit, hlimit, rfl⟩
    rw [intern_run, intern_run]
    dsimp only
    rcases A.index[n]? with - | h
    · by_cases hroom : A.nodes.size < A.limit
      · rw [if_pos hroom, if_pos (Nat.lt_of_lt_of_le hroom hlimit)]
        exact .inr ⟨rfl, limit, hlimit, rfl⟩
      · rw [if_neg hroom]
        exact .inl ⟨_, trivial, rfl⟩
    · exact .inr ⟨rfl, limit, hlimit, rfl⟩

section Alike

variable {R : Arena → Arena → Prop} [Arena.Alike R]

theorem intern_steady (n : Node) : SteadyIn R (intern n) := Arena.Alike.intern_steady n

theorem integer_steady (n : Int) : SteadyIn R (integer n) := intern_steady _

theorem sum_steady (hs : List Handle) : SteadyIn R (sum hs) := by
  unfold sum
  split
  · exact integer_steady _
  · exact .pure _
  · exact intern_steady _

theorem product_steady (hs : List Handle) : SteadyIn R (product hs) := by
  unfold product
  split
  · exact integer_steady _
  · exact .pure _
  · exact intern_steady _

end Alike

theorem internSymbol_steady (name : String) : Steady (internSymbol name) := by
  rintro A _ ⟨limit, hlimit, rfl⟩
  exact .inr ⟨rfl, limit, hlimit, rfl⟩

theorem rational_steady (q : Rat) : Steady (rational q) := by
  unfold rational
  split
  · exact integer_steady _
  · exact intern_steady _

theorem symbol_steady (name : String) : Steady (symbol name) :=
  (internSymbol_steady name).bind fun _ => intern_steady _

theorem difference_steady (a b : Handle) : Steady (difference a b) :=
  (intern_steady _).bind fun _ => sum_steady _

theorem call_steady (name : String) (arg : Handle) : Steady (call name arg) :=
  (internSymbol_steady name).bind fun _ => intern_steady _

mutual

theorem store_steady : ∀ e : Expression, Steady (store e)
  | .integer _ | .fraction _ | .float _ | .symbol _ | .constant _ | .undefined | .unreal =>
    intern_steady _
  | .sum args | .product args | .apply _ args | .matrix _ _ args =>
    (storeAll_steady args).bind fun _ => intern_steady _
  | .opposite a | .call _ a => (store_steady a).bind fun _ => intern_steady _
  | .power a b | .quotient a b =>
    (store_steady a).bind fun _ => (store_steady b).bind fun _ => intern_steady _

theorem storeAll_steady : ∀ es : List Expression, Steady (storeAll es)
  | [] => .pure _
  | e :: es => (store_steady e).bind fun _ => (storeAll_steady es).bind fun _ => .pure _

end

end Build

/-! ### Storing terms -/

namespace Head

open Build

/-- The computation is steady.  A text that cannot be read cannot be read with more room either. -/
abbrev Steady (m : BuildT ImportError α) : Prop :=
  Resolvent.Steady Arena.Wider (fun e => ∃ x, e = .exhausted x) m

theorem lift_steady {m : Build α} (hm : Build.Steady m) : Steady (Build.lift .exhausted m) :=
  fun A => (hm A).adapt fun x _ => ⟨x, rfl⟩

theorem buildSymbol_steady (placeholders : List Handle) (name : String) :
    Steady (buildSymbol placeholders name) := by
  unfold buildSymbol
  split
  · split
    · exact .pure _
    · exact .throw _
  · repeat' split
    all_goals
      first
        | exact .throw _
        | exact lift_steady (intern_steady _)
        | exact lift_steady (rational_steady _)
        | exact lift_steady (symbol_steady _)

theorem buildOperator_steady (o : Operator) (operands : List (Head × Handle)) :
    Steady (buildOperator o operands) := by
  unfold buildOperator
  split
  · exact lift_steady (sum_steady _)
  · exact lift_steady (difference_steady _ _)
  · exact lift_steady (product_steady _)
  · exact lift_steady (intern_steady _)
  · exact lift_steady (intern_steady _)
  · exact lift_steady (intern_steady _)
  · exact lift_steady ((intern_steady _).bind fun _ => intern_steady _)
  · exact lift_steady (intern_steady _)
  · split
    · split
      · exact lift_steady (call_steady _ _)
      · exact .throw _
    · exact .throw _
  · split
    · exact lift_steady (intern_steady _)
    · exact .throw _
  · exact .throw _

theorem build_steady (placeholders : List Handle) (operands : List (Head × Handle)) (h : Head) :
    Steady (h.build placeholders operands) := by
  cases h with
  | number n => exact lift_steady (integer_steady n)
  | symbol name => exact buildSymbol_steady placeholders name
  | op o => exact buildOperator_steady o operands

end Head

theorem Term.build_steady (placeholders : List Handle) (t : Term) :
    Head.Steady (t.build placeholders) := by
  unfold Term.build
  rw [← Array.foldlM_toList]
  refine Steady.bind (Steady.foldlM (fun built c => ?_) _ _) fun built => ?_
  · exact (Head.build_steady _ _ _).bind fun h => .pure _
  · split
    · exact .pure _
    · exact .throw _

/-! ### Expansion -/

variable {R : Arena → Arena → Prop}

namespace ExpandM

/-- The computation is steady.  Errors of the expression are the same in related arenas. -/
abbrev SteadyIn (R : Arena → Arena → Prop) (m : ExpandM α) : Prop :=
  Resolvent.Steady (fun x y : Arena × Encounters => R x.1 y.1 ∧ x.2 = y.2)
    (fun e => ∃ x, e = .exhausted x) m

theorem build_steady {m : Build Handle} (hm : Build.SteadyIn R m) : SteadyIn R (build m) := by
  rintro ⟨A, s⟩ ⟨B, _⟩ ⟨hAB, rfl⟩
  unfold build
  dsimp only
  rcases hA : m A with ⟨r, A'⟩
  rcases hB : m B with ⟨r', B'⟩
  rcases (hm A).runs hA hB hAB with ⟨e, -, rfl⟩ | ⟨rfl, hwider⟩
  · exact .inl ⟨_, ⟨e, rfl⟩, rfl⟩
  · cases r <;> exact .inr ⟨rfl, hwider, rfl⟩

theorem meet_steady (id : Nat) : SteadyIn R (meet id) := by
  rintro ⟨A, s⟩ ⟨B, _⟩ ⟨hAB, rfl⟩
  exact .inr ⟨rfl, hAB, rfl⟩

theorem dependOn_steady [Arena.Alike R] (h : Handle) : SteadyIn R (dependOn h) := by
  rintro ⟨A, s⟩ ⟨B, _⟩ ⟨hAB, rfl⟩
  refine .inr ⟨rfl, hAB, ?_⟩
  have hexpression : (A.expression h).collectSymbols s.arguments =
      (B.expression h).collectSymbols s.arguments := by
    rw [Arena.Alike.expression_eq hAB]
  exact congrArg (fun arguments => { s with arguments }) hexpression

end ExpandM

namespace Expression

variable {Δ : Definitions} {mode : Mode} {nested : Parameters → Expression → ExpandM Handle}

theorem expandSymbol_steady [Arena.Alike R]
    (hnested : ∀ scope e, ExpandM.SteadyIn R (nested scope e))
    (scope : Parameters) (id : Nat) : ExpandM.SteadyIn R (expandSymbol Δ mode nested scope id) := by
  unfold expandSymbol
  split
  · exact .pure _
  · split
    · exact hnested _ _
    · exact (ExpandM.meet_steady _).bind fun _ => ExpandM.build_steady (Build.intern_steady _)

theorem expandCall_steady [Arena.Alike R]
    (hnested : ∀ scope e, ExpandM.SteadyIn R (nested scope e))
    (scope : Parameters) (name : Nat) (argument : Handle) :
    ExpandM.SteadyIn R (expandCall Δ nested scope name argument) := by
  refine (ExpandM.dependOn_steady _).bind fun _ => ?_
  split
  · exact .throw _
  · exact hnested _ _
  · exact hnested _ _

-- what a definition stands for is expanded by `nested`, so the induction is on the expression alone
mutual

theorem expandWith_steady [Arena.Alike R]
    (hnested : ∀ scope e, ExpandM.SteadyIn R (nested scope e))
    (scope : Parameters) : ∀ e : Expression, ExpandM.SteadyIn R (expandWith Δ mode nested scope e)
  | integer _ | fraction _ | float _ | constant _ | undefined | unreal =>
    ExpandM.build_steady (Build.intern_steady _)
  | symbol id => expandSymbol_steady hnested scope id
  | sum args => (expandAllWith_steady hnested scope args).bind fun _ =>
    ExpandM.build_steady (Build.sum_steady _)
  | product args => (expandAllWith_steady hnested scope args).bind fun _ =>
    ExpandM.build_steady (Build.product_steady _)
  | power a b | quotient a b =>
    (expandWith_steady hnested scope a).bind fun _ =>
      (expandWith_steady hnested scope b).bind fun _ => ExpandM.build_steady (Build.intern_steady _)
  | opposite a => (expandWith_steady hnested scope a).bind fun _ =>
    ExpandM.build_steady (Build.intern_steady _)
  | apply _ args => (expandAllWith_steady hnested scope args).bind fun _ =>
    ExpandM.build_steady (Build.intern_steady _)
  | call name a => (expandWith_steady hnested scope a).bind fun argument =>
    expandCall_steady hnested scope name argument
  | matrix _ _ _ => .throw _

theorem expandAllWith_steady [Arena.Alike R]
    (hnested : ∀ scope e, ExpandM.SteadyIn R (nested scope e))
    (scope : Parameters) :
    ∀ es : List Expression, ExpandM.SteadyIn R (expandAllWith Δ mode nested scope es)
  | [] => .pure _
  | e :: es => (expandWith_steady hnested scope e).bind fun _ =>
    (expandAllWith_steady hnested scope es).bind fun _ => .pure _

end

theorem expandAt_steady [Arena.Alike R] (depth : Nat) (scope : Parameters) (e : Expression) :
    ExpandM.SteadyIn R (expandAt Δ mode depth scope e) := by
  induction depth generalizing scope e with
  | zero => exact expandWith_steady (fun _ _ => .throw _) scope e
  | succ depth ih => exact expandWith_steady ih scope e

end Expression

end Resolvent

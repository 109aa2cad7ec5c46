import Mathlib.Data.List.Forall2
import Resolvent.Proofs.Expression.Substitution
import Resolvent.Proofs.Expression.Upkeep

/-!
# What stored expressions denote

A handle of a well-formed arena denotes an expression.  Different handles denote different
expressions (`Arena.WellFormed.eq_of_denotes`), because the operands of a node were stored before it
and no node is stored twice.

Storing a node gives a handle of the expression that the node assembles.  Expanding a stored
expression gives a handle of the unfolded expression, or the error that reports the obstacle, unless
the arena is full (`Expression.expand_computes`).
-/

namespace Resolvent

/-- The handle stands for the expression. -/
def Denotes (e : Expression) (h : Handle) (A : Arena) : Prop := A.expression? h = some e

/-- The handles stand for the expressions, one by one. -/
def DenotesAll (es : List Expression) (hs : List Handle) (A : Arena) : Prop :=
  hs.mapM A.expression? = some es

theorem Denotes.expression_eq {e : Expression} {h : Handle} {A : Arena} (he : Denotes e h A) :
    A.expression h = e := by
  unfold Arena.expression
  rw [show A.expression? h = some e from he, Option.getD_some]

theorem lasting_denotes (e : Expression) : Lasting (Denotes e) := fun _ _ _ hAB h =>
  hAB.expression? h

section Lists

variable {A : Arena} {e : Expression} {h : Handle} {es : List Expression} {hs : List Handle}

theorem denotesAll_nil : DenotesAll es [] A ↔ es = [] := by
  rw [DenotesAll, mapM_eq_some_iff, List.map_nil, eq_comm, List.map_eq_nil_iff]

theorem denotesAll_cons_iff :
    DenotesAll es (h :: hs) A ↔ ∃ x xs, es = x :: xs ∧ Denotes x h A ∧ DenotesAll xs hs A := by
  simp only [DenotesAll, Denotes, mapM_eq_some_iff, List.map_cons]
  rw [eq_comm, List.map_eq_cons_iff]
  constructor
  · rintro ⟨x, xs, rfl, hx, hxs⟩
    exact ⟨x, xs, rfl, hx.symm, hxs.symm⟩
  · rintro ⟨x, xs, rfl, hx, hxs⟩
    exact ⟨x, xs, rfl, hx.symm, hxs.symm⟩

theorem denotesAll_cons (he : Denotes e h A) (hes : DenotesAll es hs A) :
    DenotesAll (e :: es) (h :: hs) A := denotesAll_cons_iff.2 ⟨e, es, rfl, he, hes⟩

theorem denotesAll_singleton (he : Denotes e h A) : DenotesAll [e] [h] A :=
  denotesAll_cons he (denotesAll_nil.2 rfl)

theorem DenotesAll.length_eq (hes : DenotesAll es hs A) : hs.length = es.length := by
  simpa using congrArg List.length (mapM_eq_some_iff.1 hes)

theorem exists_of_denotesAll_singleton (h : DenotesAll [e] hs A) : ∃ k, hs = [k] ∧ Denotes e k A := by
  obtain ⟨k, rfl⟩ := List.length_eq_one_iff.1 h.length_eq
  obtain ⟨_, _, heq, hk, -⟩ := denotesAll_cons_iff.1 h
  cases heq
  exact ⟨k, rfl, hk⟩

theorem exists_of_denotesAll_pair {x y : Expression} (h : DenotesAll [x, y] hs A) :
    ∃ a b, hs = [a, b] ∧ Denotes x a A ∧ Denotes y b A := by
  obtain ⟨a, b, rfl⟩ := List.length_eq_two.1 h.length_eq
  obtain ⟨_, _, heq, ha, h⟩ := denotesAll_cons_iff.1 h
  cases heq
  obtain ⟨_, heq, hb⟩ := exists_of_denotesAll_singleton h
  cases heq
  exact ⟨a, b, rfl, ha, hb⟩

theorem DenotesAll.map_expression (hes : DenotesAll es hs A) : hs.map A.expression = es := by
  have h := congrArg (List.map fun o => o.getD .undefined) (mapM_eq_some_iff.1 hes)
  rw [List.map_map, List.map_map] at h
  exact h.trans (List.map_id es)

theorem DenotesAll.exists_mem (hes : DenotesAll es hs A) (hh : h ∈ hs) :
    ∃ e ∈ es, Denotes e h A := by
  obtain ⟨e, hmem, he⟩ := List.mem_map.1 (mapM_eq_some_iff.1 hes ▸ List.mem_map_of_mem hh :
    A.expression? h ∈ es.map some)
  exact ⟨e, hmem, he.symm⟩

theorem DenotesAll.exists_denotes (hes : DenotesAll es hs A) (hh : h ∈ hs) :
    ∃ e, Denotes e h A := (hes.exists_mem hh).imp fun _ h => h.2

theorem DenotesAll.grow {B : Arena} (hes : DenotesAll es hs A) (hAB : A.GrowsTo B) :
    DenotesAll es hs B := mapM_mono (fun _ _ _ h => hAB.expression? h) hes

theorem DenotesAll.append {es' : List Expression} {hs' : List Handle} (hes : DenotesAll es hs A)
    (hes' : DenotesAll es' hs' A) : DenotesAll (es ++ es') (hs ++ hs') A := by
  unfold DenotesAll at hes hes' ⊢
  rw [mapM_eq_some_iff] at hes hes' ⊢
  rw [List.map_append, List.map_append, hes, hes']

theorem DenotesAll.exists_of_getElem? (hes : DenotesAll es hs A) {i : Nat} (hi : es[i]? = some e) :
    ∃ h, hs[i]? = some h ∧ Denotes e h A := by
  have hall := congrArg (·[i]?) (mapM_eq_some_iff.1 hes)
  simp only [List.getElem?_map, hi, Option.map_some] at hall
  obtain ⟨h, hh, he⟩ := Option.map_eq_some_iff.1 hall
  exact ⟨h, hh, he⟩

end Lists

namespace Arena

variable {A B : Arena} {h k : Handle} {n n' : Node} {e : Expression} {depth : Nat}

theorem contains_of_read? (he : A.read? depth h = some e) : A.contains h = true := by
  cases depth with
  | zero => cases he
  | succ depth =>
    obtain ⟨n, hn, -⟩ := Option.bind_eq_some_iff.1 he
    exact contains_of_node? hn

/-- A node stands for what it assembles from its operands. -/
theorem WellFormed.expression?_eq (hA : A.WellFormed) (hn : A.node? h = some n) :
    A.expression? h = assemble? A.expression? n := by
  obtain ⟨e, he⟩ := hA.exists_expression? (contains_of_node? hn)
  rw [he]
  -- the operands are read one step less deep than the node
  obtain ⟨depth, hdepth⟩ : ∃ depth, A.nodes.size = depth + 1 :=
    Nat.exists_eq_add_one_of_ne_zero (Nat.ne_zero_of_lt (contains_iff.1 (contains_of_node? hn)))
  unfold expression? at he ⊢
  rw [hdepth] at he ⊢
  rw [read?_succ, hn, Option.bind_some] at he
  exact (assemble?_mono (fun _ _ _ => read?_of_le (Nat.le_succ depth)) he).symm

/-! ### No expression is stored twice -/

theorem eq_of_mapM {f : Handle → Option Expression} {hs ks : List Handle} {es : List Expression}
    (hf : ∀ h ∈ hs, ∀ k ∈ ks, ∀ e, f h = some e → f k = some e → h = k)
    (hh : hs.mapM f = some es) (hk : ks.mapM f = some es) : hs = ks := by
  rw [mapM_eq_some_iff] at hh hk
  induction es generalizing hs ks with
  | nil => simp_all
  | cons e es ih =>
    obtain ⟨h, hs, rfl, hhead, htail⟩ := List.map_eq_cons_iff.1 hh
    obtain ⟨k, ks, rfl, khead, ktail⟩ := List.map_eq_cons_iff.1 hk
    rw [hf h List.mem_cons_self k List.mem_cons_self e hhead khead,
      ih (fun h hh k hk => hf h (List.mem_cons_of_mem _ hh) k (List.mem_cons_of_mem _ hk)) htail
        ktail]

/-- The node of an expression with handles for its operands. -/
def nodeOf : Expression → List Handle → Node
  | .integer n, _ => .integer n
  | .fraction q, _ => .fraction q
  | .float bits, _ => .float bits
  | .symbol id, _ => .symbol id
  | .constant c, _ => .constant c
  | .unreal, _ => .unreal
  | .sum _, hs => .sum hs
  | .product _, hs => .product hs
  | .power _ _, [a, b] => .power a b
  | .opposite _, [a] => .opposite a
  | .quotient _ _, [a, b] => .quotient a b
  | .apply code _, hs => .apply code hs
  | .call name _, [a] => .call name a
  | .matrix rows columns _, hs => .matrix rows columns hs
  | _, _ => .undefined

/-- A node is determined by its expression and its operands, and these denote those of the
expression. -/
theorem children_of_assemble? {read : Handle → Option Expression} (h : assemble? read n = some e) :
    n.children.mapM read = some e.operands ∧ nodeOf e n.children = n := by
  cases n with
  | sum args | product args | apply _ args | matrix _ _ args =>
    obtain ⟨es, hes, rfl⟩ := Option.map_eq_some_iff.1 h
    exact ⟨hes, rfl⟩
  | opposite a | call _ a =>
    obtain ⟨x, hx, rfl⟩ := Option.map_eq_some_iff.1 h
    exact ⟨by simp [Node.children, hx, Expression.operands], rfl⟩
  | power a b | quotient a b =>
    simp only [assemble?, Option.bind_eq_bind, Option.bind_eq_some_iff, Option.pure_def,
      Option.some.injEq] at h
    obtain ⟨x, hx, y, hy, rfl⟩ := h
    exact ⟨by simp [Node.children, hx, hy, Expression.operands], rfl⟩
  | _ =>
    cases h
    exact ⟨rfl, rfl⟩

/-- In a well-formed arena, the expression of a handle determines the handle. -/
theorem WellFormed.eq_of_read? (hA : A.WellFormed) (hh : A.read? depth h = some e)
    (hk : A.read? depth k = some e) : h = k := by
  induction depth generalizing h k e with
  | zero => cases hh
  | succ depth ih =>
    obtain ⟨n, hn, hh⟩ := Option.bind_eq_some_iff.1 hh
    obtain ⟨m, hm, hk⟩ := Option.bind_eq_some_iff.1 hk
    obtain ⟨hnchildren, hnode⟩ := children_of_assemble? hh
    obtain ⟨hmchildren, hnode'⟩ := children_of_assemble? hk
    -- equal operands make equal nodes, and the index has one handle for a node
    have hchildren : n.children = m.children :=
      eq_of_mapM (fun c _ c' _ x hc hc' => ih hc hc') hnchildren hmchildren
    have hnm : n = m := by rw [← hnode, hchildren, hnode']
    have hindex := (hA.index_node h n hn).symm.trans (hnm ▸ hA.index_node k m hm)
    exact Option.some.inj hindex

theorem WellFormed.eq_of_denotes (hA : A.WellFormed) (hh : Denotes e h A) (hk : Denotes e k A) :
    h = k := hA.eq_of_read? hh hk

theorem WellFormed.denotesAll (hA : A.WellFormed) {hs : List Handle}
    (hhs : ∀ h ∈ hs, A.contains h = true) : DenotesAll (hs.map A.expression) hs A := by
  induction hs with
  | nil => exact denotesAll_nil.2 rfl
  | cons h hs ih =>
    obtain ⟨hh, hhs⟩ := List.forall_mem_cons.1 hhs
    obtain ⟨e, he⟩ := hA.exists_expression? hh
    have hdenotes : Denotes (A.expression h) h A := by
      rw [Denotes, expression, he, Option.getD_some]
    exact denotesAll_cons hdenotes (ih hhs)

/-- The node of a handle has operands that denote those of the expression. -/
theorem WellFormed.exists_node?_of_denotes (hA : A.WellFormed) (h : Denotes e k A) :
    ∃ n, A.node? k = some n ∧ nodeOf e n.children = n ∧ DenotesAll e.operands n.children A := by
  obtain ⟨n, hn⟩ := exists_node?_of_contains (contains_of_read? h)
  obtain ⟨hchildren, hnode⟩ := children_of_assemble? ((hA.expression?_eq hn).symm.trans h)
  exact ⟨n, hn, hnode, hchildren⟩

end Arena

/-! ### Storing nodes -/

/-- The arena is well-formed and has the given names. -/
structure Arena.Consistent (names : Symbols) (A : Arena) : Prop where
  wellFormed : A.WellFormed
  symbols : A.symbols = names

namespace Build

variable {A : Arena} {names : Symbols} {a b h : Handle} {hs : List Handle} {x y : Expression}
  {xs : List Expression}

/-- Run in a well-formed arena, the computation leaves the names as they are and gives a handle of
the expression. -/
abbrev Stores (names : Symbols) (m : Build Handle) (A : Arena) (e : Expression) : Prop :=
  Resolvent.Yields id (Arena.Consistent names) m A (Denotes e)

theorem symbols_intern (n : Node) (A : Arena) : (intern n A).2.symbols = A.symbols := by
  rw [intern_run]
  split
  · rfl
  · split <;> rfl

theorem intern_of_node? (hA : A.WellFormed) {n : Node} (hn : A.node? h = some n) :
    intern n A = (.ok h, A) := by
  rw [intern_run, hA.index_node h n hn]

/-- A node among those that an arena was made of is found where it stands first. -/
theorem intern_ofNodes {names : List String} {ns : List Node} {hnames : names.Nodup}
    (hA : (Arena.ofNodes names ns hnames).WellFormed) {n : Node} (hn : n ∈ ns) :
    intern n (.ofNodes names ns hnames) = (.ok ⟨ns.idxOf n⟩, .ofNodes names ns hnames) :=
  intern_of_node? hA (Arena.node?_ofNodes.trans (List.getElem?_idxOf hn))

theorem sum_pair (a b : Handle) : sum [a, b] = intern (.sum [a, b]) := rfl

theorem expand_eq (Δ : Definitions) (mode : Mode) (e : Expression) :
    e.expand Δ mode = e.expandWith Δ mode (Expression.expandAt Δ mode 31) [] := rfl

theorem expandAt_succ (Δ : Definitions) (mode : Mode) (depth : Nat) (scope : Expression.Parameters)
    (e : Expression) : Expression.expandAt Δ mode (depth + 1) scope e =
      e.expandWith Δ mode (Expression.expandAt Δ mode depth) scope := rfl

theorem meet_run (id : Nat) (A : Arena) :
    ExpandM.meet id (A, {}) = (.ok (), (A, { met := [id] })) := rfl

theorem node?_intern (hA : A.WellFormed) {n : Node} (hh : (intern n A).1 = .ok h) :
    (intern n A).2.node? h = some n := by
  rw [intern_run] at hh ⊢
  split at hh
  · next hfound =>
    cases hh
    exact hA.node_index _ _ hfound
  · split at hh
    · next hroom =>
      cases hh
      rw [if_pos hroom]
      exact Array.getElem?_push_size
    · cases hh

/-- Storing a node gives a handle of what the node assembles. -/
theorem intern_stores (hA : A.Consistent names) {n : Node} (hn : A.Admits n) {e : Expression}
    (he : Arena.assemble? A.expression? n = some e) : Stores names (intern n) A e := by
  obtain ⟨hgrows, hkeeps, -⟩ := intern_yields hA.wellFormed hn
  refine ⟨hgrows, ⟨hkeeps, (symbols_intern n A).trans hA.symbols⟩, fun h hh => ?_⟩
  refine (hkeeps.expression?_eq (node?_intern hA.wellFormed hh)).trans ?_
  exact Arena.assemble?_mono (fun _ _ _ => hgrows.expression?) he

/-- A node without a name of its own is stored over operands that denote expressions. -/
theorem intern_stores_of_operands (hA : A.Consistent names) {n : Node} (hname : n.name? = none)
    (hchildren : DenotesAll xs n.children A) {e : Expression}
    (he : Arena.assemble? A.expression? n = some e) : Stores names (intern n) A e := by
  refine intern_stores hA ⟨fun c hc => ?_, by simp [hname]⟩ he
  obtain ⟨x, hx⟩ := hchildren.exists_denotes hc
  exact Arena.contains_of_read? hx

theorem intern_stores_of_plain (hA : A.Consistent names) {n : Node} (hchildren : n.children = [])
    (hname : n.name? = none) {e : Expression} (he : Arena.assemble? A.expression? n = some e) :
    Stores names (intern n) A e :=
  intern_stores_of_operands hA hname (hchildren ▸ denotesAll_nil.2 rfl) he

theorem sum_stores (hA : A.Consistent names) (h : DenotesAll xs hs A) :
    Stores names (sum hs) A (Expression.sumOf xs) := by
  have hsum : Arena.assemble? A.expression? (.sum hs) = some (.sum xs) :=
    Option.map_eq_some_iff.2 ⟨xs, h, rfl⟩
  rcases hs with _ | ⟨a, _ | ⟨b, hs⟩⟩
  · obtain rfl := denotesAll_nil.1 h
    exact intern_stores_of_plain hA rfl rfl rfl
  · obtain ⟨x, xs, rfl, hx, hxs⟩ := denotesAll_cons_iff.1 h
    obtain rfl := denotesAll_nil.1 hxs
    exact .pure hA hx
  · obtain ⟨x, xs, rfl, -, hxs⟩ := denotesAll_cons_iff.1 h
    obtain ⟨y, xs, rfl, -, -⟩ := denotesAll_cons_iff.1 hxs
    exact intern_stores_of_operands hA rfl h hsum

theorem product_stores (hA : A.Consistent names) (h : DenotesAll xs hs A) :
    Stores names (product hs) A (Expression.productOf xs) := by
  have hproduct : Arena.assemble? A.expression? (.product hs) = some (.product xs) :=
    Option.map_eq_some_iff.2 ⟨xs, h, rfl⟩
  rcases hs with _ | ⟨a, _ | ⟨b, hs⟩⟩
  · obtain rfl := denotesAll_nil.1 h
    exact intern_stores_of_plain hA rfl rfl rfl
  · obtain ⟨x, xs, rfl, hx, hxs⟩ := denotesAll_cons_iff.1 h
    obtain rfl := denotesAll_nil.1 hxs
    exact .pure hA hx
  · obtain ⟨x, xs, rfl, -, hxs⟩ := denotesAll_cons_iff.1 h
    obtain ⟨y, xs, rfl, -, -⟩ := denotesAll_cons_iff.1 hxs
    exact intern_stores_of_operands hA rfl h hproduct

theorem opposite_stores (hA : A.Consistent names) (h : Denotes x a A) :
    Stores names (opposite a) A (.opposite x) :=
  intern_stores_of_operands hA rfl (denotesAll_singleton h) (Option.map_eq_some_iff.2 ⟨x, h, rfl⟩)

theorem difference_stores (hA : A.Consistent names) (ha : Denotes x a A) (hb : Denotes y b A) :
    Stores names (difference a b) A (.sum [x, .opposite y]) :=
  (opposite_stores hA hb).bind fun _ _ hAB hB hk =>
    sum_stores hB (denotesAll_cons (hAB.expression? ha) (denotesAll_singleton hk))

theorem power_stores (hA : A.Consistent names) (ha : Denotes x a A) (hb : Denotes y b A) :
    Stores names (power a b) A (.power x y) := by
  refine intern_stores_of_operands hA rfl (denotesAll_cons ha (denotesAll_singleton hb)) ?_
  rw [Arena.assemble?, show A.expression? a = some x from ha, show A.expression? b = some y from hb]
  rfl

theorem quotient_stores (hA : A.Consistent names) (ha : Denotes x a A) (hb : Denotes y b A) :
    Stores names (quotient a b) A (.quotient x y) := by
  refine intern_stores_of_operands hA rfl (denotesAll_cons ha (denotesAll_singleton hb)) ?_
  rw [Arena.assemble?, show A.expression? a = some x from ha, show A.expression? b = some y from hb]
  rfl

theorem applyCode_stores (hA : A.Consistent names) (code : Nat) (h : DenotesAll xs hs A) :
    Stores names (applyCode code hs) A (.apply code xs) :=
  intern_stores_of_operands hA rfl h (Option.map_eq_some_iff.2 ⟨xs, h, rfl⟩)

theorem matrix_stores (hA : A.Consistent names) (rows columns : Nat) (h : DenotesAll xs hs A) :
    Stores names (matrix rows columns hs) A (.matrix rows columns xs) :=
  intern_stores_of_operands hA rfl h (Option.map_eq_some_iff.2 ⟨xs, h, rfl⟩)

theorem call_stores (hA : A.Consistent names) {id : Nat} (hid : names.IsNumber id)
    (h : Denotes x a A) : Stores names (intern (.call id a)) A (.call id x) := by
  refine intern_stores hA ⟨fun c hc => ?_, fun i hi => ?_⟩ (Option.map_eq_some_iff.2 ⟨x, h, rfl⟩)
  · exact List.mem_singleton.1 hc ▸ Arena.contains_of_read? h
  · cases hi
    rw [Arena.Named, hA.symbols]
    exact hid

theorem symbol_stores (hA : A.Consistent names) {id : Nat} (hid : names.IsNumber id) :
    Stores names (intern (.symbol id)) A (.symbol id) := by
  refine intern_stores hA ⟨fun _ hc => absurd hc List.not_mem_nil, fun i hi => ?_⟩ rfl
  cases hi
  rw [Arena.Named, hA.symbols]
  exact hid

end Build

/-! ### Expansion -/

namespace ExpandM

variable {α β γ δ : Type} {names : Symbols} {x : Arena × Encounters} {r : Except Obstacle β}
  {Q : β → α → Arena → Prop}

/-- Run in a well-formed arena, the computation leaves the names as they are and gives what stands
for the outcome: a result for a result and the error that reports it for an obstacle.  The arena may
also be full. -/
structure Computes (names : Symbols) (m : ExpandM α) (x : Arena × Encounters)
    (r : Except Obstacle β) (Q : β → α → Arena → Prop) : Prop where
  yields : Resolvent.Yields Prod.fst (fun x => x.1.Consistent names) m x
    fun a A => ∃ b, r = .ok b ∧ Q b a A
  fails : ∀ e, (m x).1 = .error e → (∃ full, e = .exhausted full) ∨ ∃ o, r = .error o ∧ e = o.error

theorem Computes.pure {a : α} {b : β} (hx : x.1.Consistent names) (h : Q b a x.1) :
    Computes names (Pure.pure a) x (.ok b) Q where
  yields := Yields.pure (I := fun x : Arena × Encounters => x.1.Consistent names) hx ⟨b, rfl, h⟩
  fails := nofun

theorem Computes.throw (hx : x.1.Consistent names) (o : Obstacle) :
    Computes names (MonadExcept.throw o.error : ExpandM α) x (.error o : Except Obstacle β) Q where
  yields := Yields.throw (I := fun x : Arena × Encounters => x.1.Consistent names) hx _
  fails _ he := .inr ⟨o, rfl, (Except.error.inj he).symm⟩

theorem Computes.bind {m : ExpandM α} {f : α → ExpandM γ} {g : β → Except Obstacle δ}
    {R : δ → γ → Arena → Prop} (hm : Computes names m x r Q)
    (hf : ∀ b a y, x.1.GrowsTo y.1 → y.1.Consistent names → Q b a y.1 →
      Computes names (f a) y (g b) R) : Computes names (m >>= f) x (r >>= g) R where
  yields := by
    refine hm.yields.bind fun a y hxy hy h => ?_
    obtain ⟨b, rfl, hb⟩ := h
    exact (hf b a y hxy hy hb).yields
  fails e he := by
    obtain ⟨hgrows, hkeeps, hresult⟩ := hm.yields
    have hfails := hm.fails
    rw [bind_run] at he
    rcases hrun : m x with ⟨x' | a, y⟩ <;>
      rw [hrun] at hgrows hkeeps hresult hfails he
    · cases he
      exact (hfails e rfl).imp id fun ⟨o, ho, heo⟩ => ⟨o, by rw [ho]; rfl, heo⟩
    · obtain ⟨b, rfl, hb⟩ := hresult a rfl
      exact (hf b a y hgrows hkeeps hb).fails e he

theorem Computes.build {m : Build Handle} {e : Expression} (hm : Build.Stores names m x.1 e) :
    Computes names (build m) x (.ok e) Denotes := by
  obtain ⟨A, s⟩ := x
  obtain ⟨hgrows, hkeeps, hresult⟩ := hm
  constructor
  · constructor <;> unfold ExpandM.build <;> dsimp only
    all_goals rcases hrun : m A with ⟨full | h, B⟩ <;> rw [hrun] at hgrows hkeeps hresult
    · exact hgrows
    · exact hgrows
    · exact hkeeps
    · exact hkeeps
    · exact nofun
    · exact fun a ha => ⟨e, rfl, Except.ok.inj ha ▸ hresult h rfl⟩
  · unfold ExpandM.build
    dsimp only
    rcases m A with ⟨full | h, B⟩
    · exact fun _ he => .inl ⟨full, (Except.error.inj he).symm⟩
    · exact nofun

/-- Recording symbols first leaves the outcome as it is. -/
theorem Computes.after {m₀ : ExpandM Unit} {m : ExpandM α} {s : Encounters}
    (h₀ : m₀ x = (.ok (), (x.1, s))) (hm : Computes names m (x.1, s) r Q) :
    Computes names (m₀ >>= fun _ => m) x r Q := by
  have hrun : (m₀ >>= fun _ => m) x = m (x.1, s) := by rw [bind_run, h₀]
  obtain ⟨⟨hgrows, hkeeps, hresult⟩, hfails⟩ := hm
  rw [← hrun] at hgrows hkeeps hresult hfails
  exact ⟨⟨hgrows, hkeeps, hresult⟩, hfails⟩

end ExpandM

namespace Expression

variable {Δ : Definitions} {mode : Mode} {names : Symbols}

/-- The parameters in scope stand for handles of the expressions that they are unfolded with. -/
def DenotesScope (arguments : Arguments) (scope : Parameters) (A : Arena) : Prop :=
  List.Forall₂ (fun p q => p.1 = q.1 ∧ Denotes p.2 q.2 A) arguments scope

theorem DenotesScope.lookup {arguments : Arguments} {scope : Parameters} {A : Arena}
    (h : DenotesScope arguments scope A) (id : Nat) :
    Option.Rel (fun e k => Denotes e k A) (arguments.lookup id) (scope.lookup id) := by
  induction h with
  | nil => exact .none
  | @cons p q ps qs hpq _ ih =>
    obtain ⟨p, e⟩ := p
    obtain ⟨q, k⟩ := q
    obtain ⟨rfl, hpq⟩ := hpq
    rw [List.lookup_cons, List.lookup_cons]
    cases id == p
    · exact ih
    · exact .some hpq

theorem DenotesScope.grow {arguments : Arguments} {scope : Parameters} {A B : Arena}
    (h : DenotesScope arguments scope A) (hAB : A.GrowsTo B) : DenotesScope arguments scope B :=
  h.imp fun _ _ h => ⟨h.1, lasting_denotes _ _ _ _ hAB h.2⟩

/-- The function expands expressions to what the other one unfolds them to. -/
def Follows (names : Symbols) (nested : Parameters → Expression → ExpandM Handle)
    (unfolded : Arguments → Expression → Except Obstacle Expression) : Prop :=
  ∀ arguments scope e x, DenotesScope arguments scope x.1 → x.1.Consistent names →
    e.IdentifiersIn names.IsNumber →
    ExpandM.Computes names (nested scope e) x (unfolded arguments e) Denotes

variable {nested : Parameters → Expression → ExpandM Handle}
  {unfolded : Arguments → Expression → Except Obstacle Expression} {arguments : Arguments}
  {scope : Parameters} {x : Arena × Encounters}

theorem expandSymbol_computes (hnested : Follows names nested unfolded)
    (hΔ : Δ.IdentifiersIn names.IsNumber) (hscope : DenotesScope arguments scope x.1)
    (hx : x.1.Consistent names) {id : Nat} (hid : names.IsNumber id) :
    ExpandM.Computes names (expandSymbol Δ mode nested scope id) x
      (unfoldSymbol Δ mode unfolded arguments id) Denotes := by
  have hlookup := hscope.lookup id
  unfold expandSymbol unfoldSymbol
  rcases he : arguments.lookup id with - | e <;> rcases hk : scope.lookup id with - | k <;>
    rw [he, hk] at hlookup <;> cases hlookup
  · rcases hvalue : (if mode = .replaceAll then Δ.value? id else none) with - | v
    · exact .after rfl (.build (Build.symbol_stores hx hid))
    · obtain ⟨-, hv⟩ := Option.ite_none_right_eq_some.1 hvalue
      exact hnested arguments scope v x hscope hx (hΔ.value id v hv)
  · next h => exact .pure hx h

theorem expandCall_computes (hnested : Follows names nested unfolded)
    (hΔ : Δ.IdentifiersIn names.IsNumber) (hscope : DenotesScope arguments scope x.1)
    (hx : x.1.Consistent names) (name : Nat) {e : Expression} {argument : Handle}
    (hargument : Denotes e argument x.1) :
    ExpandM.Computes names (expandCall Δ nested scope name argument) x
      (unfoldCall Δ unfolded arguments name e) Denotes := by
  unfold expandCall unfoldCall
  refine .after rfl ?_
  rcases hbody : Δ.function? name with - | ⟨_ | parameter, body⟩
  · refine ExpandM.Computes.throw ?_ .unknownFunction
    exact hx
  · exact hnested arguments scope body _ hscope hx (hΔ.body _ _ hbody)
  · refine hnested ((parameter, e) :: arguments) _ body _ ?_ hx (hΔ.body _ _ hbody)
    exact .cons ⟨rfl, hargument⟩ hscope

-- what a definition stands for is expanded by `nested`, so the induction is on the expression alone
mutual

theorem expandWith_computes (hnested : Follows names nested unfolded)
    (hΔ : Δ.IdentifiersIn names.IsNumber) : ∀ {x : Arena × Encounters} {e : Expression},
    DenotesScope arguments scope x.1 → x.1.Consistent names → e.IdentifiersIn names.IsNumber →
    ExpandM.Computes names (expandWith Δ mode nested scope e) x
      (unfoldWith Δ mode unfolded arguments e) Denotes
  | _, integer _, _, hx, _ | _, fraction _, _, hx, _ | _, float _, _, hx, _
  | _, constant _, _, hx, _ | _, undefined, _, hx, _ | _, unreal, _, hx, _ =>
    .build (Build.intern_stores_of_plain hx rfl rfl rfl)
  | _, symbol _, hscope, hx, he =>
    expandSymbol_computes hnested hΔ hscope hx
      ((identifiersIn_symbol (S := names.IsNumber)).1 he)
  | _, sum _, hscope, hx, he =>
    (expandAllWith_computes hnested hΔ hscope hx (identifiersIn_sum.1 he)).bind fun _ _ _ _ hy h =>
      .build (Build.sum_stores hy h)
  | _, product _, hscope, hx, he =>
    (expandAllWith_computes hnested hΔ hscope hx (identifiersIn_product.1 he)).bind
      fun _ _ _ _ hy h =>
      .build (Build.product_stores hy h)
  | _, apply code _, hscope, hx, he =>
    (expandAllWith_computes hnested hΔ hscope hx (identifiersIn_apply.1 he)).bind
      fun _ _ _ _ hy h =>
      .build (Build.applyCode_stores hy code h)
  | _, opposite _, hscope, hx, he =>
    (expandWith_computes hnested hΔ hscope hx (identifiersIn_opposite.1 he)).bind
      fun _ _ _ _ hy h =>
      .build (Build.opposite_stores hy h)
  | _, power _ _, hscope, hx, he =>
    have ⟨ha, hb⟩ := identifiersIn_power.1 he
    (expandWith_computes hnested hΔ hscope hx ha).bind fun _ _ _ hxy hy ha =>
      (expandWith_computes hnested hΔ (hscope.grow hxy) hy hb).bind fun _ _ _ hyz hz hb =>
        .build (Build.power_stores hz (lasting_denotes _ _ _ _ hyz ha) hb)
  | _, quotient _ _, hscope, hx, he =>
    have ⟨ha, hb⟩ := identifiersIn_quotient.1 he
    (expandWith_computes hnested hΔ hscope hx ha).bind fun _ _ _ hxy hy ha =>
      (expandWith_computes hnested hΔ (hscope.grow hxy) hy hb).bind fun _ _ _ hyz hz hb =>
        .build (Build.quotient_stores hz (lasting_denotes _ _ _ _ hyz ha) hb)
  | _, call name _, hscope, hx, he =>
    (expandWith_computes hnested hΔ hscope hx (identifiersIn_call.1 he).2).bind
      fun _ _ _ hxy hy h =>
      expandCall_computes hnested hΔ (hscope.grow hxy) hy name h
  | _, matrix _ _ _, _, hx, _ => .throw hx .matrix

theorem expandAllWith_computes (hnested : Follows names nested unfolded)
    (hΔ : Δ.IdentifiersIn names.IsNumber) : ∀ {x : Arena × Encounters} {es : List Expression},
    DenotesScope arguments scope x.1 → x.1.Consistent names →
    (∀ e ∈ es, e.IdentifiersIn names.IsNumber) →
    ExpandM.Computes names (expandAllWith Δ mode nested scope es) x
      (unfoldAllWith Δ mode unfolded arguments es) DenotesAll
  | _, [], _, hx, _ => .pure hx (denotesAll_nil.2 rfl)
  | _, _ :: _, hscope, hx, he =>
    have ⟨he, hes⟩ := List.forall_mem_cons.1 he
    (expandWith_computes hnested hΔ hscope hx he).bind fun _ _ _ hxy hy h =>
      (expandAllWith_computes hnested hΔ (hscope.grow hxy) hy hes).bind fun _ _ _ hyz hz hs =>
        .pure hz (denotesAll_cons (lasting_denotes _ _ _ _ hyz h) hs)

end

theorem follows_expandAt (hΔ : Δ.IdentifiersIn names.IsNumber) (depth : Nat) :
    Follows names (expandAt Δ mode depth) (unfoldAt Δ mode depth) := by
  induction depth with
  | zero =>
    have hthrow : Follows names (fun _ _ => throw .undefined) fun _ _ => .error .depth :=
      fun _ _ _ _ _ hx _ => .throw hx .depth
    exact fun _ _ _ _ hscope hx he => expandWith_computes hthrow hΔ hscope hx he
  | succ depth ih => exact fun _ _ _ _ hscope hx he => expandWith_computes ih hΔ hscope hx he

/-- Expanding an expression stores what it unfolds to, or fails with the error that reports the
obstacle, unless the arena is full. -/
theorem expand_computes (mode : Mode) (hΔ : Δ.IdentifiersIn names.IsNumber) {A : Arena}
    (hA : A.Consistent names) {e : Expression} (he : e.IdentifiersIn names.IsNumber)
    (s : Encounters) :
    ExpandM.Computes names (e.expand Δ mode) (A, s) (e.unfold Δ mode) Denotes :=
  follows_expandAt hΔ _ [] [] e (A, s) .nil hA he

end Expression

end Resolvent

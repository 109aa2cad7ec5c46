import Resolvent.Proofs.Expression.Unfolded
import Resolvent.Proofs.Term.Meaning

/-!
# What the term of an expression means

The term of an expanded expression means the expression with its sums and products taken apart into
chains of two operands and with the exponential function written as a power of Euler's number
(`Expression.chained`, `Arena.means_term`).  Whatever has no form as a term is kept as a whole,
behind a placeholder.

The cells are appended one by one, and a place that is remembered for an expression is that of a
cell which means it.  The cell of the expression itself comes last.
-/

namespace Resolvent

namespace Expression

/-- A chain of operations with two operands each. -/
def chain (op : Expression → Expression → Expression) : List Expression → Expression
  | [] => integer 0
  | e :: es => es.foldl op e

mutual

/-- The expression that the term of an expression means: sums and products are chains, and the
exponential function is a power of Euler's number. -/
def chained : Expression → Expression
  | sum es => chain (fun a b => sum [a, b]) (chainedAll es)
  | product es => chain (fun a b => product [a, b]) (chainedAll es)
  | power base exponent => power (chained base) (chained exponent)
  | opposite a => opposite (chained a)
  | quotient a b => quotient (chained a) (chained b)
  | apply code es =>
    match Builtin.ofCode? code, chainedAll es with
    | none, _ => apply code es
    | some .exp, [a] => power (constant .e) a
    | some _, as => apply code as
  | e => e

/-- The expressions that the terms of expressions mean. -/
def chainedAll : List Expression → List Expression
  | [] => []
  | e :: es => chained e :: chainedAll es

end

theorem chainedAll_eq_map (es : List Expression) : chainedAll es = es.map chained := by
  induction es with
  | nil => rfl
  | cons e es ih => rw [chainedAll, ih, List.map_cons]

theorem chained_apply {f : Builtin} (hf : f ≠ .exp) (es : List Expression) :
    (apply f.code es).chained = apply f.code (es.map chained) := by
  rw [chained, Builtin.ofCode?_code, chainedAll_eq_map]
  cases f <;> first | rfl | exact absurd rfl hf

theorem chained_apply_of_ofCode? {code : Nat} (h : Builtin.ofCode? code = none)
    (es : List Expression) : (apply code es).chained = apply code es := by
  rw [chained, h]

/-- An expanded expression whose symbols have names that import turns into symbols, and whose
built-in functions have as many arguments as they take. -/
structure Raisable (names : Symbols) (e : Expression) : Prop where
  expanded : e.Unfolded fun id => ∃ name, names.name? id = some name ∧ Head.IsSymbolName name
  arity : ∀ code args, (apply code args).Within e → Builtin.ofCode? code ≠ none →
    args.length = Builtin.arityOfCode code

theorem Raisable.operand {names : Symbols} {e c : Expression} (h : e.Raisable names)
    (hc : c ∈ e.operands) : c.Raisable names where
  expanded := h.expanded.operand hc
  arity code args hargs := h.arity code args (hargs.trans (.operand hc .self))

theorem raisable_symbol {names : Symbols} {id : Nat} {name : String}
    (hid : names.name? id = some name) (hname : Head.IsSymbolName name) :
    (symbol id).Raisable names where
  expanded := unfolded_symbol ⟨name, hid, hname⟩
  arity code args hargs := by
    obtain hargs | ⟨_, hc, -⟩ := within_iff.1 hargs
    · cases hargs
    · cases hc

/-- A regular expression is raisable if its operands are and it has as many of them as it should. -/
theorem raisable_of_operands {names : Symbols} {e : Expression} (he : e.isRegular = true)
    (hes : ∀ c ∈ e.operands, c.Raisable names)
    (hseveral : ∀ es, e = sum es ∨ e = product es → 2 ≤ es.length)
    (harity : ∀ code args, e = apply code args → Builtin.ofCode? code ≠ none →
      args.length = Builtin.arityOfCode code) : e.Raisable names where
  expanded := unfolded_of_operands he (fun c hc => (hes c hc).expanded) hseveral
  arity code args hargs := by
    obtain rfl | ⟨c, hc, hargs⟩ := within_iff.1 hargs
    · exact harity code args rfl
    · exact (hes c hc).arity code args hargs

end Expression

namespace Lowering

variable {α β : Type} {A : Arena} {es : List Expression} {e : Expression} {h : Handle}

/-- The cells so far mean the expressions, and the place of an expression is that of a cell that
means it. -/
structure Means (A : Arena) (s : Lowering) (es : List Expression) : Prop where
  term : s.term.Means A.symbols (s.placeholders.toList.map A.expression) es
  places : ∀ (h : Handle) (i : Nat), s.places[h]? = some i →
    es[i]? = some (A.expression h).chained

/-- Where the cells mean the expressions, the computation appends cells so that they mean these and
more, and its result has a property. -/
def Appends (A : Arena) (es : List Expression) (m : StateM Lowering α)
    (R : α → List Expression → Prop) : Prop :=
  ∀ s, Means A s es → ∃ es', es <+: es' ∧ Means A (m s).2 es' ∧ R (m s).1 es'

/-- The expression is meant by the cell at the place. -/
def IsAt (e : Expression) (i : Nat) (es : List Expression) : Prop := es[i]? = some e

/-- The expression is meant by the last cell, at the place. -/
def IsLast (e : Expression) (i : Nat) (es : List Expression) : Prop :=
  IsAt e i es ∧ i + 1 = es.length

/-- The expressions are meant by the cells at the places. -/
abbrev AreAt (xs : List Expression) (is : List Nat) (es : List Expression) : Prop :=
  List.Forall₂ (fun i x => es[i]? = some x) is xs

theorem IsAt.grow {i : Nat} {es' : List Expression} (h : IsAt e i es) (hes : es <+: es') :
    IsAt e i es' := by
  obtain ⟨rest, rfl⟩ := hes
  exact (List.getElem?_append_left (List.getElem?_eq_some_iff.1 h).1).trans h

theorem AreAt.grow {xs : List Expression} {is : List Nat} {es' : List Expression}
    (h : AreAt xs is es) (hes : es <+: es') : AreAt xs is es' :=
  h.imp fun _ _ h => IsAt.grow h hes

/-- Appends the cells of an expression that has no place. -/
def pushNew (A : Arena) (depth : Nat) (h : Handle) : StateM Lowering Nat := do
  let i ← match A.node? h with
    | some n => pushNode A (pushExpression A depth) h n
    | none => pushPlaceholder h
  remember h i

theorem pushExpression_run (A : Arena) (depth : Nat) (h : Handle) (s : Lowering) :
    pushExpression A (depth + 1) h s = match s.places[h]? with
      | some i => (i, s)
      | none => pushNew A depth h s := by
  change (match s.places[h]? with | some i => _ | none => _ : StateM Lowering Nat) s = _
  rcases s.places[h]? with - | i <;> rfl

namespace Appends

variable {R : α → List Expression → Prop} {S : β → List Expression → Prop}

theorem pure {a : α} (ha : R a es) : Appends A es (Pure.pure a) R := fun _ hs =>
  ⟨es, List.prefix_refl es, hs, ha⟩

theorem bind {m : StateM Lowering α} {f : α → StateM Lowering β} (hm : Appends A es m R)
    (hf : ∀ a es', es <+: es' → R a es' → Appends A es' (f a) S) : Appends A es (m >>= f) S := by
  intro s hs
  obtain ⟨es', hes, hs', ha⟩ := hm s hs
  obtain ⟨es'', hes', hs'', hb⟩ := hf _ es' hes ha _ hs'
  exact ⟨es'', hes.trans hes', hs'', hb⟩

theorem isLast_append : IsLast e es.length (es ++ [e]) :=
  ⟨List.getElem?_concat_length, by simp⟩

/-- A cell that has a meaning, whatever the placeholders stand for, is put behind the others. -/
theorem push {c : Cell} {args : List Expression} (hargs : AreAt args c.operands es)
    (hc : ∀ ps, c.head.Means A.symbols ps args e) : Appends A es (push c) (IsLast e) := by
  intro s hs
  have hlast : IsLast e s.term.cells.size (es ++ [e]) := hs.term.length_eq ▸ isLast_append
  refine ⟨es ++ [e], List.prefix_append es [e], ⟨hs.term.push hargs (hc _), fun h i hi => ?_⟩, hlast⟩
  exact IsAt.grow (hs.places h i hi) (List.prefix_append es [e])

/-- A placeholder means the expression that it stands for. -/
theorem pushPlaceholder (he : (A.expression h).chained = A.expression h) :
    Appends A es (pushPlaceholder h) (IsLast (A.expression h).chained) := by
  intro s hs
  let ps := s.placeholders.toList.map A.expression
  have hplaceholders : (s.placeholders.push h).toList.map A.expression = ps ++ [A.expression h] := by
    rw [Array.toList_push, List.map_append, List.map_singleton]
  have hsize : ps.length = s.placeholders.size := by simp [ps]
  have hhead : (Head.symbol ("$" ++ toString s.placeholders.size)).Means A.symbols
      (ps ++ [A.expression h]) [] (A.expression h) :=
    .placeholder (hsize ▸ List.getElem?_concat_length)
  have hlast : IsLast (A.expression h) s.term.cells.size (es ++ [A.expression h]) :=
    hs.term.length_eq ▸ isLast_append
  rw [he]
  refine ⟨es ++ [A.expression h], List.prefix_append es _, ⟨?_, fun k i hi => ?_⟩, hlast⟩
  · change Term.Means A.symbols ((s.placeholders.push h).toList.map A.expression) _ _
    rw [hplaceholders]
    exact (hs.term.append [A.expression h]).push .nil hhead
  · exact IsAt.grow (hs.places k i hi) (List.prefix_append es _)

theorem remember {i : Nat} (hi : IsLast (A.expression h).chained i es) :
    Appends A es (remember h i) (IsLast (A.expression h).chained) := by
  refine fun s hs => ⟨es, List.prefix_refl es, ⟨hs.term, fun k j hj => ?_⟩, hi⟩
  change (s.places.insert h i)[k]? = some j at hj
  rw [Std.HashMap.getElem?_insert] at hj
  split at hj
  · next hk =>
    cases hj
    rw [← beq_iff_eq.1 hk]
    exact hi.1
  · exact hs.places k j hj

theorem mapM {go : Handle → StateM Lowering Nat} {hs : List Handle}
    (hgo : ∀ c ∈ hs, ∀ es', es <+: es' → Appends A es' (go c) (IsAt (A.expression c).chained)) :
    Appends A es (hs.mapM go) (AreAt (hs.map fun c => (A.expression c).chained)) := by
  induction hs generalizing es with
  | nil => exact pure .nil
  | cons c hs ih =>
    rw [List.mapM_cons]
    refine (hgo c List.mem_cons_self es (List.prefix_refl es)).bind fun i es' hes hi => ?_
    refine (ih fun d hd es'' hes' => hgo d (List.mem_cons_of_mem _ hd) es'' (hes.trans hes')).bind
      fun is es'' hes' his => pure (.cons (hi.grow hes') his)

/-- The operators of a chain are put behind the first operand, each over what is there already. -/
theorem foldlM_push {o : Operator} {op : Expression → Expression → Expression}
    (hop : ∀ ps a b, (Head.op o).Means A.symbols ps [a, b] (op a b)) {x : Expression} {i : Nat}
    {xs : List Expression} {is : List Nat} (hx : IsLast x i es) (hxs : AreAt xs is es) :
    Appends A es (is.foldlM (fun i j => Lowering.push ⟨.op o, [i, j]⟩) i)
      (IsLast (xs.foldl op x)) := by
  induction is generalizing es x i xs with
  | nil =>
    cases hxs
    exact pure hx
  | cons j is ih =>
    obtain ⟨y, ys, hy, hys, rfl⟩ := List.forall₂_cons_left_iff.1 hxs
    rw [List.foldlM_cons, List.foldl_cons]
    have hargs : AreAt [x, y] [i, j] es := .cons hx.1 (.cons hy .nil)
    exact (push hargs fun ps => hop ps x y).bind fun k es' hes hk => ih hk (AreAt.grow hys hes)

/-- A chain of at least two operands is put behind the others. -/
theorem pushChain {o : Operator} {op : Expression → Expression → Expression}
    (hop : ∀ ps a b, (Head.op o).Means A.symbols ps [a, b] (op a b)) {xs : List Expression}
    {is : List Nat} (hlength : 2 ≤ xs.length) (hxs : AreAt xs is es) :
    Appends A es (pushChain o is) (IsLast (Expression.chain op xs)) := by
  match xs, is, hxs with
  | x :: y :: xs, i :: j :: is, .cons hx (.cons hy hxs) =>
    have hargs : AreAt [x, y] [i, j] es := .cons hx (.cons hy .nil)
    unfold Lowering.pushChain Expression.chain
    dsimp only
    rw [List.foldlM_cons, List.foldl_cons]
    exact (push hargs fun ps => hop ps x y).bind fun k es' hes hk =>
      foldlM_push hop hk (AreAt.grow hxs hes)

variable {go : Handle → StateM Lowering Nat} {hs : List Handle}

theorem pushApply {f : Builtin} (hf : f ≠ .exp) {xs : List Expression} {is : List Nat}
    (hxs : AreAt (xs.map Expression.chained) is es) :
    Appends A es (Lowering.push ⟨.op (.apply f), is⟩)
      (IsLast (Expression.apply f.code xs).chained) := by
  rw [Expression.chained_apply hf]
  exact push hxs fun _ => .apply hf _

/-- The cells of a built-in function are put behind those of its arguments; a code of no function is
kept as a whole. -/
theorem pushFunction {code : Nat} {xs : List Expression} (he : A.expression h = .apply code xs)
    (hxs : hs.map A.expression = xs)
    (harity : Builtin.ofCode? code ≠ none → xs.length = Builtin.arityOfCode code)
    (hgo : ∀ c ∈ hs, ∀ es', es <+: es' → Appends A es' (go c) (IsAt (A.expression c).chained)) :
    Appends A es (pushFunction go h code hs) (IsLast (A.expression h).chained) := by
  have hlength : hs.length = xs.length := by rw [← hxs, List.length_map]
  rcases hcode : Builtin.ofCode? code with - | f
  · -- there is no such function
    have hwhole : (A.expression h).chained = A.expression h := by
      rw [he, Expression.chained_apply_of_ofCode? hcode]
    cases hs with
    | nil => exact pushPlaceholder hwhole
    | cons c cs =>
      unfold Lowering.pushFunction
      dsimp only
      rw [hcode]
      exact (hgo c List.mem_cons_self es (List.prefix_refl es)).bind fun _ _ _ _ =>
        pushPlaceholder hwhole
  have harity := harity (by simp [hcode])
  obtain rfl := Builtin.code_of_ofCode? hcode
  have hfirst : ∀ {a}, a ∈ hs → Appends A es (go a) (IsAt (A.expression a).chained) := fun ha =>
    hgo _ ha es (List.prefix_refl es)
  subst hxs
  rw [he]
  cases f with
  | root =>
    obtain ⟨a, b, rfl⟩ := List.length_eq_two.1 (hlength.trans harity)
    refine (hfirst (by simp)).bind fun i es' hes hi => ?_
    refine (hgo b (by simp) es' hes).bind fun j es'' hes' hj => ?_
    exact pushApply (by decide) (.cons (hi.grow hes') (.cons hj .nil))
  | exp =>
    obtain ⟨a, rfl⟩ := List.length_eq_one_iff.1 (hlength.trans harity)
    exact (hfirst (by simp)).bind fun i es' _ hi => push (.cons hi .nil) fun _ => .exp _
  | _ =>
    obtain ⟨a, rfl⟩ := List.length_eq_one_iff.1 (hlength.trans harity)
    exact (hfirst (by simp)).bind fun i es' _ hi => pushApply (by decide) (.cons hi .nil)

/-- The cells of a node are put behind those of its operands. -/
theorem pushNode (hA : A.WellFormed) (he : Denotes e h A) (hraisable : e.Raisable A.symbols)
    (hhs : DenotesAll e.operands hs A)
    (hgo : ∀ c ∈ hs, ∀ es', es <+: es' → Appends A es' (go c) (IsAt (A.expression c).chained)) :
    Appends A es (pushNode A go h (Arena.nodeOf e hs)) (IsLast (A.expression h).chained) := by
  have hexpression := he.expression_eq
  have hall := hhs.map_expression
  have hmap : hs.map (fun c => (A.expression c).chained) = e.operands.map Expression.chained := by
    rw [← hall, List.map_map]
    rfl
  cases e with
  | integer n =>
    rw [hexpression]
    exact push .nil fun _ => .number n
  | constant c =>
    rw [hexpression]
    exact push .nil fun _ => .constant c
  | symbol id =>
    obtain ⟨name, hname, hsymbol⟩ := hraisable.expanded.symbols id .self
    have hnamed : A.Named id :=
      Expression.identifiersIn_symbol.1 (hexpression ▸ hA.identifiersIn_expression h)
    rw [hexpression]
    unfold Arena.nodeOf Lowering.pushNode
    dsimp only
    rw [show A.symbolName? id = some name from hname]
    exact push .nil fun _ => .symbol hsymbol (Symbols.id?_of_name? hnamed.2 hname)
  | sum xs =>
    rw [hexpression, Expression.chained, Expression.chainedAll_eq_map]
    refine (mapM hgo).bind fun is es' hes his => ?_
    rw [hmap] at his
    exact pushChain (fun _ => .add) (by simpa using hraisable.expanded.several xs (.inl .self)) his
  | product xs =>
    rw [hexpression, Expression.chained, Expression.chainedAll_eq_map]
    refine (mapM hgo).bind fun is es' hes his => ?_
    rw [hmap] at his
    exact pushChain (fun _ => .mul) (by simpa using hraisable.expanded.several xs (.inr .self)) his
  | apply code xs =>
    exact pushFunction hexpression hall (hraisable.arity code xs .self) hgo
  | fraction | float | undefined | unreal | matrix =>
    exact pushPlaceholder (by rw [hexpression]; rfl)
  | call name x =>
    obtain ⟨a, rfl, -⟩ := exists_of_denotesAll_singleton hhs
    exact pushPlaceholder (by rw [hexpression]; rfl)
  | opposite x =>
    obtain ⟨a, rfl, ha⟩ := exists_of_denotesAll_singleton hhs
    have hx := hgo a (by simp) es (List.prefix_refl es)
    rw [ha.expression_eq] at hx
    rw [hexpression]
    exact hx.bind fun i es' _ hi => push (.cons hi .nil) fun _ => .neg _
  | power x y =>
    obtain ⟨a, b, rfl, ha, hb⟩ := exists_of_denotesAll_pair hhs
    have hx := hgo a (by simp) es (List.prefix_refl es)
    have hy := hgo b (by simp)
    rw [ha.expression_eq] at hx
    rw [hb.expression_eq] at hy
    rw [hexpression, Expression.chained]
    unfold Arena.nodeOf Lowering.pushNode
    dsimp only
    split
    · next hE =>
      -- a power of Euler's number
      obtain rfl := (isE_iff hA ha).1 hE
      exact (hy es (List.prefix_refl es)).bind fun i es' _ hi => push (.cons hi .nil) fun _ => .exp _
    · exact hx.bind fun i es' hes hi => (hy es' hes).bind fun j es'' hes' hj =>
        push (.cons (hi.grow hes') (.cons hj .nil)) fun _ => .pow _ _
  | quotient x y =>
    obtain ⟨a, b, rfl, ha, hb⟩ := exists_of_denotesAll_pair hhs
    have hx := hgo a (by simp) es (List.prefix_refl es)
    have hy := hgo b (by simp)
    rw [ha.expression_eq] at hx
    rw [hb.expression_eq] at hy
    rw [hexpression, Expression.chained]
    exact hx.bind fun i es' hes hi => (hy es' hes).bind fun j es'' hes' hj =>
      push (.cons (hi.grow hes') (.cons hj .nil)) fun _ => .div _ _

/-- The cells of an expression are put behind those of its parts and the place of the last one is
remembered. -/
theorem pushNew (hA : A.WellFormed) {depth : Nat} (hdepth : h.index ≤ depth)
    (he : Denotes e h A) (hraisable : e.Raisable A.symbols)
    (hgo : ∀ {c : Handle} {x : Expression} {es : List Expression}, c.index < depth →
      Denotes x c A → x.Raisable A.symbols →
        Appends A es (Lowering.pushExpression A depth c) (IsAt (A.expression c).chained)) :
    Appends A es (Lowering.pushNew A depth h) (IsLast (A.expression h).chained) := by
  obtain ⟨n, hn, hnode, hoperands⟩ := hA.exists_node?_of_denotes he
  unfold Lowering.pushNew
  rw [hn]
  dsimp only
  rw [← hnode]
  refine (pushNode hA he hraisable hoperands fun c hc es' _ => ?_).bind fun i es' _ hi => remember hi
  -- the operands of a node were stored before it
  have hlt := hA.operand_lt h n hn c hc
  obtain ⟨x, hx, hxc⟩ := hoperands.exists_mem hc
  exact hgo (by omega) hxc (hraisable.operand hx)

theorem pushExpression (hA : A.WellFormed) {depth : Nat} (hdepth : h.index < depth)
    (he : Denotes e h A) (hraisable : e.Raisable A.symbols) :
    Appends A es (pushExpression A depth h) (IsAt (A.expression h).chained) := by
  induction depth generalizing h e es with
  | zero => exact absurd hdepth (Nat.not_lt_zero _)
  | succ depth ih =>
    intro s hs
    rw [pushExpression_run]
    rcases hplace : s.places[h]? with - | i
    · obtain ⟨es', hes, hs', hi⟩ := pushNew hA (Nat.le_of_lt_succ hdepth) he hraisable ih s hs
      exact ⟨es', hes, hs', hi.1⟩
    · exact ⟨es, List.prefix_refl es, hs, hs.places h i hplace⟩

end Appends

end Lowering

/-- The term of an expression means the expression taken apart into chains. -/
theorem Arena.means_term {A : Arena} (hA : A.WellFormed) {h : Handle} (hh : Stored h A)
    (he : (A.expression h).Raisable A.symbols) :
    ∃ es, (A.term h).1.Means A.symbols ((A.term h).2.map A.expression) es ∧
      es.getLast? = some (A.expression h).chained := by
  obtain ⟨e, hdenotes⟩ := hA.exists_expression? hh
  rw [Arena.expression, hdenotes, Option.getD_some] at he
  obtain ⟨depth, hdepth⟩ : ∃ depth, A.nodes.size = depth + 1 :=
    Nat.exists_eq_add_one_of_ne_zero (Nat.ne_zero_of_lt (contains_iff.1 hh))
  have hlt : h.index < depth + 1 := hdepth ▸ contains_iff.1 hh
  have hempty : Lowering.Means A {} [] := ⟨.empty, fun k i hk => by simp at hk⟩
  obtain ⟨es, -, hs, hlast, hlength⟩ := Lowering.Appends.pushNew hA (Nat.le_of_lt_succ hlt) hdenotes he
    (fun hc hx hraisable => Lowering.Appends.pushExpression hA hc hx hraisable) {} hempty
  unfold Arena.term StateT.run
  rw [hdepth, Lowering.pushExpression_run, Std.HashMap.getElem?_empty]
  refine ⟨es, hs.term, ?_⟩
  rw [List.getLast?_eq_getElem?, ← hlength]
  exact hlast

end Resolvent

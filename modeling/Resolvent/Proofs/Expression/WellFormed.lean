import Resolvent.Proofs.Expression.Growth
import Resolvent.Proofs.Expression.Identifiers

/-!
# Well-formed arenas

In a well-formed arena the operands of a node were stored before it, what a node names has a name,
and the index gives the handle of each stored node, so that no node is stored twice.  Every stored
handle then has a meaning (`Arena.WellFormed.exists_meaning?`): an expression, and a name for each
of its symbols and user functions.  An arena that grows keeps the meaning of every handle
(`Arena.GrowsTo.meaning?`), so what a rollback leaves has its old meaning.
-/

namespace Resolvent

/-- The number of the symbol or of the user function that a node names. -/
def Node.name? : Node → Option Nat
  | symbol id | call id _ => some id
  | _ => none

namespace Arena

variable {A B : Arena} {h : Handle} {e : Expression} {n : Node} {depth : Nat}

/-- The numbers that have a name. -/
def Named (A : Arena) (id : Nat) : Prop := A.symbols.IsNumber id

/-- The operands of the node are stored, and what it names has a name. -/
structure Admits (A : Arena) (n : Node) : Prop where
  operands : ∀ c ∈ n.children, A.contains c = true
  named : ∀ id, n.name? = some id → A.Named id

/-- The index gives the handle of each stored node and of no other. -/
def Indexed (A : Arena) : Prop := Mirrors Handle.index A.index A.nodes

/-- Operands come before the nodes that use them, what is named has a name, and the index gives the
handle of each stored node and of no other. -/
structure WellFormed (A : Arena) : Prop where
  operand_lt : ∀ h n, A.node? h = some n → ∀ c ∈ n.children, c.index < h.index
  named : ∀ h n, A.node? h = some n → ∀ id, n.name? = some id → A.Named id
  node_index : ∀ n h, A.index[n]? = some h → A.node? h = some n
  index_node : ∀ h n, A.node? h = some n → A.index[n]? = some h

/-! ### Nodes -/

theorem contains_iff : A.contains h = true ↔ h.index < A.nodes.size := by simp [contains]

theorem contains_of_node? (hn : A.node? h = some n) : A.contains h = true := by
  rw [← node?_isSome_iff, hn, Option.isSome_some]

theorem exists_node?_of_contains (hh : A.contains h = true) : ∃ n, A.node? h = some n :=
  Option.isSome_iff_exists.1 ((A.node?_isSome_iff h).2 hh)

theorem WellFormed.admits (hA : A.WellFormed) (hn : A.node? h = some n) : A.Admits n where
  operands c hc := contains_iff.2 <|
    Nat.lt_trans (hA.operand_lt h n hn c hc) (contains_iff.1 (contains_of_node? hn))
  named := hA.named h n hn

namespace GrowsTo

variable (hAB : A.GrowsTo B)

include hAB

theorem node?_eq (hh : A.contains h = true) : B.node? h = A.node? h := by
  have hnodes : A.nodes = B.nodes.take A.nodes.size := congrArg Arena.nodes hAB.rollback.symm
  have hlt := contains_iff.1 hh
  have hle : A.nodes.size ≤ B.nodes.size := hAB.size_le
  rw [Arena.node?, Arena.node?, hnodes, Array.take_eq_extract, Array.getElem?_extract]
  rw [if_pos (by omega), Nat.zero_add]

theorem node? (hn : A.node? h = some n) : B.node? h = some n :=
  (hAB.node?_eq (contains_of_node? hn)).trans hn

theorem contains (hh : A.contains h = true) : B.contains h = true :=
  contains_iff.2 (Nat.lt_of_lt_of_le (contains_iff.1 hh) hAB.size_le)

theorem named {id : Nat} (hid : A.Named id) : B.Named id :=
  ⟨Nat.lt_of_lt_of_le hid.1 hAB.symbols_le, hid.2⟩

theorem symbolName? {id : Nat} {name : String} (hname : A.symbolName? id = some name) :
    B.symbolName? id = some name := by
  have hsymbols : A.symbols = B.symbols.truncate A.symbols.size :=
    congrArg Arena.symbols hAB.rollback.symm
  rw [Arena.symbolName?, hsymbols, Symbols.name?_truncate] at hname
  exact (Option.ite_none_right_eq_some.1 hname).2

theorem identifiersIn (he : e.IdentifiersIn A.Named) : e.IdentifiersIn B.Named :=
  fun id hid => hAB.named (he id hid)

end GrowsTo

theorem exists_symbolName? {id : Nat} (h : A.Named id) : ∃ name, A.symbolName? id = some name :=
  ⟨_, Array.getElem?_eq_getElem h.1⟩

/-! ### Expressions -/

/-- A node stands for the same expression wherever its operands do. -/
theorem assemble?_mono {read read' : Handle → Option Expression}
    (hread : ∀ c ∈ n.children, ∀ e, read c = some e → read' c = some e)
    (h : assemble? read n = some e) : assemble? read' n = some e := by
  cases n with
  | sum args | product args | apply _ args | matrix _ _ args =>
    obtain ⟨es, hes, rfl⟩ := Option.map_eq_some_iff.1 h
    exact Option.map_eq_some_iff.2 ⟨es, mapM_mono hread hes, rfl⟩
  | opposite a | call _ a =>
    obtain ⟨e, he, rfl⟩ := Option.map_eq_some_iff.1 h
    exact Option.map_eq_some_iff.2 ⟨e, hread a (by simp [Node.children]) e he, rfl⟩
  | power a b | quotient a b =>
    simp only [assemble?, Option.bind_eq_bind, Option.bind_eq_some_iff] at h ⊢
    obtain ⟨ea, ha, eb, hb, h⟩ := h
    exact ⟨ea, hread a (by simp [Node.children]) ea ha, eb,
      hread b (by simp [Node.children]) eb hb, h⟩
  | _ => exact h

/-- A node stands for an expression if its operands do. -/
theorem exists_assemble? {read : Handle → Option Expression}
    (hread : ∀ c ∈ n.children, ∃ e, read c = some e) : ∃ e, assemble? read n = some e := by
  cases n with
  | sum args | product args | apply _ args | matrix _ _ args =>
    obtain ⟨es, hes⟩ : ∃ es, args.mapM read = some es := exists_mapM hread
    exact ⟨_, by rw [assemble?, hes, Option.map_some]⟩
  | opposite a | call _ a =>
    obtain ⟨e, he⟩ := hread a (by simp [Node.children])
    exact ⟨_, by rw [assemble?, he, Option.map_some]⟩
  | power a b | quotient a b =>
    obtain ⟨ea, ha⟩ := hread a (by simp [Node.children])
    obtain ⟨eb, hb⟩ := hread b (by simp [Node.children])
    exact ⟨_, by rw [assemble?, ha, hb]; rfl⟩
  | _ => exact ⟨_, rfl⟩

/-- The identifiers of the expression of a node are those of its operands and what it names. -/
theorem identifiersIn_of_assemble? {S : Nat → Prop} {read : Handle → Option Expression}
    (hread : ∀ c ∈ n.children, ∀ e, read c = some e → e.IdentifiersIn S)
    (hname : ∀ id, n.name? = some id → S id) (h : assemble? read n = some e) :
    e.IdentifiersIn S := by
  have hargs : ∀ {args : List Handle} {es : List Expression}, (∀ c ∈ args, c ∈ n.children) →
      args.mapM read = some es → ∀ x ∈ es, x.IdentifiersIn S := by
    intro args es hsub hes x hx
    obtain ⟨c, hc, hcx⟩ := exists_of_mem_mapM hes hx
    exact hread c (hsub c hc) x hcx
  cases n with
  | sum args =>
    obtain ⟨es, hes, rfl⟩ := Option.map_eq_some_iff.1 h
    exact Expression.identifiersIn_sum.2 (hargs (fun _ hc => hc) hes)
  | product args =>
    obtain ⟨es, hes, rfl⟩ := Option.map_eq_some_iff.1 h
    exact Expression.identifiersIn_product.2 (hargs (fun _ hc => hc) hes)
  | apply code args =>
    obtain ⟨es, hes, rfl⟩ := Option.map_eq_some_iff.1 h
    exact Expression.identifiersIn_apply.2 (hargs (fun _ hc => hc) hes)
  | matrix rows columns args =>
    obtain ⟨es, hes, rfl⟩ := Option.map_eq_some_iff.1 h
    exact Expression.identifiersIn_matrix.2 (hargs (fun _ hc => hc) hes)
  | opposite a =>
    obtain ⟨e, he, rfl⟩ := Option.map_eq_some_iff.1 h
    exact Expression.identifiersIn_opposite.2 (hread a (by simp [Node.children]) e he)
  | call id a =>
    obtain ⟨e, he, rfl⟩ := Option.map_eq_some_iff.1 h
    exact Expression.identifiersIn_call.2
      ⟨hname id rfl, hread a (by simp [Node.children]) e he⟩
  | power a b =>
    simp only [assemble?, Option.bind_eq_bind, Option.bind_eq_some_iff, Option.pure_def,
      Option.some.injEq] at h
    obtain ⟨ea, ha, eb, hb, rfl⟩ := h
    exact Expression.identifiersIn_power.2
      ⟨hread a (by simp [Node.children]) ea ha, hread b (by simp [Node.children]) eb hb⟩
  | quotient a b =>
    simp only [assemble?, Option.bind_eq_bind, Option.bind_eq_some_iff, Option.pure_def,
      Option.some.injEq] at h
    obtain ⟨ea, ha, eb, hb, rfl⟩ := h
    exact Expression.identifiersIn_quotient.2
      ⟨hread a (by simp [Node.children]) ea ha, hread b (by simp [Node.children]) eb hb⟩
  | symbol id =>
    cases h
    exact Expression.identifiersIn_symbol.2 (hname id rfl)
  | _ =>
    cases h
    exact Expression.identifiersIn_of_eq_nil (by rw [Expression.identifiers])

theorem GrowsTo.read? (hAB : A.GrowsTo B) (he : A.read? depth h = some e) :
    B.read? depth h = some e := by
  induction depth generalizing h e with
  | zero => cases he
  | succ depth ih =>
    rw [read?_succ] at he ⊢
    obtain ⟨n, hn, he⟩ := Option.bind_eq_some_iff.1 he
    rw [hAB.node? hn, Option.bind_some]
    exact assemble?_mono (fun _ _ _ => ih) he

theorem read?_of_le {depth' : Nat} (hle : depth ≤ depth') (he : A.read? depth h = some e) :
    A.read? depth' h = some e := by
  induction depth generalizing h e depth' with
  | zero => cases he
  | succ depth ih =>
    obtain ⟨k, rfl⟩ := Nat.exists_eq_add_one_of_ne_zero (Nat.ne_zero_of_lt hle)
    rw [read?_succ] at he ⊢
    obtain ⟨n, hn, he⟩ := Option.bind_eq_some_iff.1 he
    rw [hn, Option.bind_some]
    exact assemble?_mono (fun _ _ _ => ih (Nat.le_of_succ_le_succ hle)) he

theorem GrowsTo.expression? (hAB : A.GrowsTo B) (he : A.expression? h = some e) :
    B.expression? h = some e := read?_of_le hAB.size_le (hAB.read? he)

/-- No expression is deeper than the place of its node. -/
theorem WellFormed.exists_read? (hA : A.WellFormed) (hh : A.contains h = true)
    (hdepth : h.index < depth) : ∃ e, A.read? depth h = some e := by
  induction depth generalizing h with
  | zero => exact absurd hdepth (Nat.not_lt_zero _)
  | succ depth ih =>
    obtain ⟨n, hn⟩ := exists_node?_of_contains hh
    rw [read?_succ, hn, Option.bind_some]
    refine exists_assemble? fun c hc => ih ((hA.admits hn).operands c hc) ?_
    have := hA.operand_lt h n hn c hc
    omega

theorem WellFormed.exists_expression? (hA : A.WellFormed) (hh : A.contains h = true) :
    ∃ e, A.expression? h = some e := hA.exists_read? hh (contains_iff.1 hh)

theorem WellFormed.identifiersIn_read? (hA : A.WellFormed) (he : A.read? depth h = some e) :
    e.IdentifiersIn A.Named := by
  induction depth generalizing h e with
  | zero => cases he
  | succ depth ih =>
    obtain ⟨n, hn, he⟩ := Option.bind_eq_some_iff.1 he
    exact identifiersIn_of_assemble? (fun _ _ _ => ih) (hA.named h n hn) he

theorem WellFormed.identifiersIn_expression (hA : A.WellFormed) (h : Handle) :
    (A.expression h).IdentifiersIn A.Named := by
  unfold expression
  rcases he : A.expression? h with - | e
  · exact Expression.identifiersIn_of_eq_nil (by rw [Option.getD_none, Expression.identifiers])
  · exact hA.identifiersIn_read? he

/-! ### Meaning -/

end Arena

/-- An expression, with the names of its symbols and user functions in order. -/
structure Meaning where
  /-- The expression, with symbols by number. -/
  expression : Expression
  /-- The names of its symbols and user functions. -/
  names : List String

namespace Arena

variable {A B : Arena} {h : Handle} {m : Meaning}

/-- What a handle means, unless something in it stands for no node or has no name. -/
def meaning? (A : Arena) (h : Handle) : Option Meaning :=
  (A.expression? h).bind fun e => (e.identifiers.mapM A.symbolName?).map fun names => ⟨e, names⟩

/-- Every stored handle of a well-formed arena has a meaning. -/
theorem WellFormed.exists_meaning? (hA : A.WellFormed) (hh : A.contains h = true) :
    ∃ m, A.meaning? h = some m := by
  obtain ⟨e, he⟩ := hA.exists_expression? hh
  obtain ⟨names, hnames⟩ := exists_mapM (f := A.symbolName?) fun id hid =>
    exists_symbolName? (hA.identifiersIn_read? he id hid)
  exact ⟨⟨e, names⟩, by rw [meaning?, he, Option.bind_some, hnames, Option.map_some]⟩

/-- An arena that grows keeps the meaning of its handles. -/
theorem GrowsTo.meaning? (hAB : A.GrowsTo B) (hm : A.meaning? h = some m) :
    B.meaning? h = some m := by
  obtain ⟨e, he, hm⟩ := Option.bind_eq_some_iff.1 hm
  obtain ⟨names, hnames, rfl⟩ := Option.map_eq_some_iff.1 hm
  rw [Arena.meaning?, hAB.expression? he, Option.bind_some,
    mapM_mono (fun _ _ _ => hAB.symbolName?) hnames, Option.map_some]

/-- Handles that were stored before an arena grew mean the same before and after. -/
theorem GrowsTo.meaning?_eq (hAB : A.GrowsTo B) (hA : A.WellFormed) (hh : A.contains h = true) :
    B.meaning? h = A.meaning? h := by
  obtain ⟨m, hm⟩ := hA.exists_meaning? hh
  rw [hm, hAB.meaning? hm]

/-! ### Storing -/

theorem WellFormed.withLimit (limit : Nat) : (withLimit limit).WellFormed where
  operand_lt h n hn := by simp [Arena.withLimit, node?] at hn
  named h n hn := by simp [Arena.withLimit, node?] at hn
  node_index n h hn := by simp [Arena.withLimit] at hn
  index_node h n hn := by simp [Arena.withLimit, node?] at hn

theorem node?_push (A : Arena) (n : Node) (index : Std.ExtHashMap Node Handle) (h : Handle) :
    node? { A with nodes := A.nodes.push n, index } h =
      if h.index = A.nodes.size then some n else A.node? h := by
  rw [node?, Array.getElem?_push]
  rfl

/-- What is true of every node stays true when a node is stored of which it is true. -/
theorem forall_node?_push {P : Handle → Node → Prop} {index : Std.ExtHashMap Node Handle}
    (hA : ∀ h k, A.node? h = some k → P h k) (hn : P ⟨A.nodes.size⟩ n) (h : Handle) (k : Node)
    (hk : node? { A with nodes := A.nodes.push n, index } h = some k) : P h k := by
  rw [node?_push] at hk
  split at hk
  · next heq =>
    cases hk
    rwa [show h = ⟨A.nodes.size⟩ from congrArg Handle.mk heq]
  · exact hA h k hk

theorem Indexed.withLimit (limit : Nat) : (withLimit limit).Indexed := .empty Handle.index

theorem Indexed.push (hA : A.Indexed) (hnew : A.index[n]? = none) : Indexed { A with
    nodes := A.nodes.push n, index := A.index.insert n ⟨A.nodes.size⟩ } :=
  Mirrors.push hA (fun _ _ h => congrArg Handle.mk h) hnew rfl

theorem Indexed.rollback (hA : A.Indexed) (c : Checkpoint) : (A.rollback c).Indexed :=
  Mirrors.take hA (fun i => ⟨⟨i⟩, rfl⟩) c.nodes

theorem WellFormed.indexed (hA : A.WellFormed) : A.Indexed := fun n h =>
  ⟨hA.node_index n h, hA.index_node h n⟩

/-- A new node whose operands are stored and whose name is known may be stored. -/
theorem WellFormed.push (hA : A.WellFormed) {n : Node} (hn : A.Admits n)
    (hnew : A.index[n]? = none) : WellFormed { A with
      nodes := A.nodes.push n, index := A.index.insert n ⟨A.nodes.size⟩ } where
  operand_lt := forall_node?_push hA.operand_lt fun c hc => contains_iff.1 (hn.operands c hc)
  named := forall_node?_push hA.named hn.named
  node_index k h := (hA.indexed.push hnew k h).1
  index_node h k := (hA.indexed.push hnew k h).2

theorem WellFormed.internSymbol (hA : A.WellFormed) (name : String) :
    WellFormed { A with symbols := (A.symbols.intern name).2 } where
  operand_lt := hA.operand_lt
  named h n hn id hid :=
    have hnamed := hA.named h n hn id hid
    ⟨Nat.lt_of_lt_of_le hnamed.1 (A.symbols.size_le_intern name), hnamed.2⟩
  node_index := hA.node_index
  index_node := hA.index_node

theorem named_intern (A : Arena) (name : String) :
    Named { A with symbols := (A.symbols.intern name).2 } (A.symbols.intern name).1 := by
  obtain ⟨place, hname, hid⟩ := A.symbols.exists_place_intern name
  have hlt := (Array.getElem?_eq_some_iff.1 hname).1
  rw [hid]
  exact ⟨Nat.lt_of_le_of_lt (Symbols.idAt_le place) hlt, Symbols.idAt_le_maxId place⟩

/-! ### Arenas of given nodes -/

/-- The arena that holds the nodes in order, with room for a hundred. -/
def ofNodes (names : List String) (ns : List Node) (hnames : names.Nodup := by decide) :
    Arena where
  nodes := ns.toArray
  index := .ofList (ns.zipIdx.map fun (n, i) => (n, ⟨i⟩))
  symbols := .ofNames names hnames
  limit := 100

section OfNodes

variable {names : List String} {ns : List Node} {hnames : names.Nodup}

theorem node?_ofNodes : (ofNodes names ns hnames).node? h = ns[h.index]? := by
  simp [node?, ofNodes]

theorem Indexed.ofNodes (hns : ns.Nodup) : (ofNodes names ns hnames).Indexed :=
  Mirrors.ofList Handle.mk Handle.index (fun _ => rfl) (fun _ => rfl) hns

/-- Different nodes, each after its operands, make a well-formed arena. -/
theorem WellFormed.ofNodes (hns : ns.Nodup)
    (hoperands : ∀ p ∈ ns.zipIdx, ∀ c ∈ p.1.children, c.index < p.2)
    (hnamed : ∀ n ∈ ns, ∀ id, n.name? = some id → id < names.length ∧ id ≤ Symbols.maxId) :
    (ofNodes names ns hnames).WellFormed where
  operand_lt h n hn :=
    hoperands (n, h.index) (List.mem_zipIdx_iff_getElem?.2 (node?_ofNodes.symm.trans hn))
  named h n hn id hid := by
    have hname := hnamed n (List.mem_of_getElem? (node?_ofNodes.symm.trans hn)) id hid
    simpa [Named, Symbols.IsNumber, Arena.ofNodes, Symbols.ofNames, Symbols.size] using hname
  node_index n h := (Indexed.ofNodes hns n h).1
  index_node h n := (Indexed.ofNodes hns n h).2

end OfNodes

end Arena

end Resolvent

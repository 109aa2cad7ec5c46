import Mathlib.Logic.Relation
import Resolvent.Proofs.Expression.Upkeep

/-!
# Faithful arenas

Every arena that operations on stored operands lead to from the empty one is a faithful store of
expressions (`History.faithful_of_reachable`): the index gives the handle of each stored node and of
nothing else, so that equal nodes have one handle; the operands of a node are stored before it;
there are no more nodes than the limit admits; and nodes are written as the constructors write them.
Names and numbers belong to each other, and a name that was known before another has the smaller
number for as long as it stays known.

The invariant of the nodes is `Arena.Faithful`.  The constructors uphold it, and a rollback to any
checkpoint keeps it, also to one that was taken when there were more nodes or names than now.

What can be done with an arena is to store an expression with one of the constructors, to number a
name, to take a checkpoint and to roll back to one.  A history is an arena with the checkpoints that
were taken since it began, to which alone it may roll back.

Whatever has followed a checkpoint, rolling back to it gives the arena that it was taken in
(`History.rollback_of_run`): constructors may have failed after they have stored a node or numbered
a name, and there may have been rollbacks to later checkpoints.  So what is done behind the rollback
gets the answers that it would have got at the checkpoint.
-/

namespace Resolvent

namespace Arena

/-- A constructor of expressions, with its arguments. -/
inductive Allocation where
  /-- A whole number of 64 bits. -/
  | integer (n : Int)
  /-- A rational number. -/
  | rational (q : Rat)
  /-- A double. -/
  | float (x : Float)
  /-- A symbol. -/
  | symbol (name : String)
  /-- A constant. -/
  | constant (c : Constant)
  /-- The value that does not exist. -/
  | undefined
  /-- The value that is not real. -/
  | unreal
  /-- A sum. -/
  | sum (terms : List Handle)
  /-- A product. -/
  | product (factors : List Handle)
  /-- A power. -/
  | power (base exponent : Handle)
  /-- An opposite. -/
  | opposite (arg : Handle)
  /-- A quotient. -/
  | quotient (numerator denominator : Handle)
  /-- A difference. -/
  | difference (a b : Handle)
  /-- A built-in function, by its code. -/
  | apply (code : Nat) (args : List Handle)
  /-- A user function. -/
  | call (name : String) (arg : Handle)
  /-- A matrix. -/
  | matrix (rows columns : Nat) (entries : List Handle)

namespace Allocation

/-- Stores the expression. -/
def build : Allocation → Build Handle
  | integer n => Build.integer n
  | rational q => Build.rational q
  | float x => Build.float x
  | symbol name => Build.symbol name
  | constant c => Build.constant c
  | undefined => Build.undefined
  | unreal => Build.unreal
  | sum terms => Build.sum terms
  | product factors => Build.product factors
  | power base exponent => Build.power base exponent
  | opposite arg => Build.opposite arg
  | quotient numerator denominator => Build.quotient numerator denominator
  | difference a b => Build.difference a b
  | apply code args => Build.applyCode code args
  | call name arg => Build.call name arg
  | matrix rows columns entries => Build.matrix rows columns entries

/-- The handles that the expression is stored over. -/
def operands : Allocation → List Handle
  | sum args | product args | apply _ args | matrix _ _ args => args
  | power a b | quotient a b | difference a b => [a, b]
  | opposite a | call _ a => [a]
  | _ => []

theorem build_grows (a : Allocation) : Along GrowsTo id a.build := by
  cases a with
  | integer n => exact Build.integer_grows n
  | rational q => exact Build.rational_grows q
  | symbol name => exact Build.symbol_grows name
  | sum terms => exact Build.sum_grows terms
  | product factors => exact Build.product_grows factors
  | difference a b => exact Build.difference_grows a b
  | call name arg => exact Build.call_grows name arg
  | _ => exact Build.intern_grows _

end Allocation

/-- What may be done with an arena. -/
inductive Action where
  /-- Stores an expression. -/
  | allocate (a : Allocation)
  /-- Gives a name a number. -/
  | number (name : String)
  /-- Takes a checkpoint. -/
  | checkpoint
  /-- Rolls back to a checkpoint. -/
  | rollback (c : Checkpoint)

/-- What an operation answers. -/
inductive Reply where
  /-- The handle of an expression. -/
  | handle (h : Handle)
  /-- The number of a name. -/
  | id (n : Nat)
  /-- A checkpoint. -/
  | checkpoint (c : Checkpoint)
  /-- There is no room for a node. -/
  | exhausted (e : Exhausted)
  /-- Nothing is to be said. -/
  | done

/-- The reply to a computation that may run out of nodes. -/
def Reply.ofExcept {α : Type} (f : α → Reply) : Except Exhausted α → Reply
  | .ok a => f a
  | .error e => .exhausted e

/-- What an operation answers, and the arena behind it. -/
def Action.run : Action → Arena → Reply × Arena
  | allocate a, A => (a.build A).map (Reply.ofExcept .handle) id
  | number name, A => (Build.internSymbol name A).map (Reply.ofExcept .id) id
  | checkpoint, A => (.checkpoint A.checkpoint, A)
  | rollback c, A => (.done, A.rollback c)

/-- What operations answer one after the other, and the arena behind the last one. -/
def replay : List Action → Arena → List Reply × Arena
  | [], A => ([], A)
  | op :: ops, A =>
    let (reply, B) := op.run A
    let (replies, C) := replay ops B
    (reply :: replies, C)

end Arena

open Arena

/-- An arena, with the checkpoints that were taken so far. -/
structure History where
  /-- The nodes and names. -/
  arena : Arena
  /-- The checkpoints, the last one first. -/
  taken : List Checkpoint := []

namespace History

/-- The history behind an operation, whether that succeeds or not. -/
def perform (S : History) (op : Action) : History where
  arena := (op.run S.arena).2
  taken := match op with
    | .checkpoint => S.arena.checkpoint :: S.taken
    | _ => S.taken

/-- A rollback leads to a checkpoint that was taken. -/
def Permits (S : History) : Action → Prop
  | .rollback c => c ∈ S.taken
  | _ => True

/-- One operation. -/
def Step (S T : History) : Prop := ∃ op, S.Permits op ∧ T = S.perform op

/-! ### Going back to a checkpoint -/

/-- The history of an arena that has grown from another one, which no checkpoint comes before. -/
structure Follows (A : Arena) (S : History) : Prop where
  grows : A.GrowsTo S.arena
  taken : ∀ c ∈ S.taken, A.size ≤ c.nodes ∧ A.symbols.size ≤ c.symbols

variable {A : Arena} {S T : History}

/-- A rollback to a later checkpoint keeps what was there at an early one. -/
theorem grows_rollback {B : Arena} {c : Checkpoint} (hAB : A.GrowsTo B) (hnodes : A.size ≤ c.nodes)
    (hsymbols : A.symbols.size ≤ c.symbols) : A.GrowsTo (B.rollback c) where
  size_le := by
    have hsize : (B.rollback c).size = min c.nodes B.size := by simp [Arena.rollback, Arena.size]
    rw [hsize]
    exact Nat.le_min.2 ⟨hnodes, hAB.size_le⟩
  symbols_le := by
    have hsize : (B.rollback c).symbols.size = min c.symbols B.symbols.size := by
      simp [Arena.rollback, Symbols.truncate, Symbols.size]
    rw [hsize]
    exact Nat.le_min.2 ⟨hsymbols, hAB.symbols_le⟩
  rollback := (B.rollback_rollback hnodes hsymbols).trans hAB.rollback

theorem Follows.perform (hS : S.Follows A) {op : Action} (hop : S.Permits op) :
    (S.perform op).Follows A := by
  obtain ⟨hgrows, htaken⟩ := hS
  cases op with
  | allocate a => exact ⟨hgrows.trans (a.build_grows S.arena), htaken⟩
  | number name => exact ⟨hgrows.trans (.internSymbol S.arena name), htaken⟩
  | checkpoint =>
    refine ⟨hgrows, fun c hc => ?_⟩
    rcases List.mem_cons.1 hc with rfl | hc
    · exact ⟨hgrows.size_le, hgrows.symbols_le⟩
    · exact htaken c hc
  | rollback c =>
    obtain ⟨hnodes, hsymbols⟩ := htaken c hop
    exact ⟨grows_rollback hgrows hnodes hsymbols, htaken⟩

theorem Follows.run (hS : S.Follows A) (hrun : Relation.ReflTransGen Step S T) : T.Follows A := by
  induction hrun with
  | refl => exact hS
  | tail _ hstep ih =>
    obtain ⟨op, hop, rfl⟩ := hstep
    exact ih.perform hop

/-- Whatever follows a checkpoint, rolling back to it gives the arena that it was taken in, where any
operations get the answers that they would have got there. -/
theorem rollback_of_run (hrun : Relation.ReflTransGen Step ⟨A, [A.checkpoint]⟩ T) :
    T.arena.rollback A.checkpoint = A ∧
      ∀ ops, replay ops (T.arena.rollback A.checkpoint) = replay ops A := by
  have hstart : Follows A ⟨A, [A.checkpoint]⟩ :=
    ⟨.refl A, List.forall_mem_singleton.2 ⟨Nat.le_refl _, Nat.le_refl _⟩⟩
  have hback := (hstart.run hrun).grows.rollback
  exact ⟨hback, fun ops => by rw [hback]⟩

/-- The number zero, with room for one more node. -/
def zeroArena : Arena := (Build.integer 0 (.withLimit 2)).2

/-- The difference `0 - 0` finds room for the opposite only, and the symbol `x` for its name only. -/
def failedAttempts : History :=
  (perform ⟨zeroArena, [zeroArena.checkpoint]⟩ (.allocate (.difference ⟨0⟩ ⟨0⟩))).perform
    (.allocate (.symbol "x"))

theorem checkpoint_zeroArena : zeroArena.checkpoint = ⟨1, 0⟩ := by
  simp [zeroArena, Build.integer, Build.intern_run, withLimit, maxLimit, Arena.checkpoint,
    Symbols.size]

theorem checkpoint_failedAttempts : failedAttempts.arena.checkpoint = ⟨2, 1⟩ := by
  have hnew : ({} : Symbols).place? "x" = none := by simp [Symbols.place?]
  simp [failedAttempts, zeroArena, perform, Action.run, Allocation.build, Build.difference,
    Build.opposite, Build.sum, Build.symbol, Build.integer, bind_run, Build.intern_run,
    Build.internSymbol_run, withLimit, maxLimit, Arena.checkpoint, Symbols.size,
    (Symbols.names_intern_of_new hnew).2]

/-- Rolling back takes away what the failed constructors have left. -/
theorem rollback_of_run_failedAttempts :
    Relation.ReflTransGen Step ⟨zeroArena, [zeroArena.checkpoint]⟩ failedAttempts ∧
      failedAttempts.arena ≠ zeroArena ∧
      failedAttempts.arena.rollback zeroArena.checkpoint = zeroArena ∧
      ∀ ops, replay ops (failedAttempts.arena.rollback zeroArena.checkpoint) =
        replay ops zeroArena := by
  have hrun : Relation.ReflTransGen Step ⟨zeroArena, [zeroArena.checkpoint]⟩ failedAttempts :=
    .tail (.single ⟨.allocate (.difference ⟨0⟩ ⟨0⟩), trivial, rfl⟩)
      ⟨.allocate (.symbol "x"), trivial, rfl⟩
  refine ⟨hrun, fun heq => ?_, rollback_of_run hrun⟩
  have hlater := checkpoint_failedAttempts
  rw [heq, checkpoint_zeroArena] at hlater
  cases hlater

end History

end Resolvent

/-! ## Faithful arenas -/

namespace Resolvent

namespace Arena

variable {A B : Arena} {h : Handle} {n : Node}

/-- The index gives the handle of each stored node and of nothing else, operands are stored before
the nodes that use them, and there is room for all the nodes, which are those that the constructors
write. -/
structure Faithful (A : Arena) : Prop where
  index_iff : ∀ n h, A.index[n]? = some h ↔ A.node? h = some n
  operand : ∀ h n, A.node? h = some n → ∀ c ∈ n.children,
    A.contains c = true ∧ c.index < h.index
  proper : ∀ h n, A.node? h = some n → n.Proper
  size_le : A.size ≤ A.limit

/-! ### Nodes -/

theorem faithful_withLimit (limit : Nat) : (withLimit limit).Faithful where
  index_iff := Indexed.withLimit limit
  operand h n hn := by simp [withLimit, node?] at hn
  proper h n hn := by simp [withLimit, node?] at hn
  size_le := Nat.zero_le _

theorem Faithful.push (hA : A.Faithful) (hn : A.Admits n) (hproper : n.Proper)
    (hnew : A.index[n]? = none) (hroom : A.nodes.size < A.limit) : Faithful { A with
      nodes := A.nodes.push n, index := A.index.insert n ⟨A.nodes.size⟩ } where
  index_iff := Indexed.push hA.index_iff hnew
  operand := by
    have hgrows : A.GrowsTo _ := .push ⟨A.nodes.size⟩ hnew
    refine forall_node?_push (fun h k hk c hc => ?_) fun c hc => ?_
    · exact ⟨hgrows.contains (hA.operand h k hk c hc).1, (hA.operand h k hk c hc).2⟩
    · exact ⟨hgrows.contains (hn.operands c hc), contains_iff.1 (hn.operands c hc)⟩
  proper := forall_node?_push hA.proper hproper
  size_le := by
    simp only [size, Array.size_push]
    exact hroom

instance : Upheld Faithful where
  contains hA hindex := contains_of_node? ((hA.index_iff _ _).1 hindex)
  push := Faithful.push
  internSymbol _ hA := ⟨hA.index_iff, hA.operand, hA.proper, hA.size_le⟩

theorem node?_rollback (A : Arena) (c : Checkpoint) (h : Handle) :
    (A.rollback c).node? h = if h.index < c.nodes then A.node? h else none :=
  getElem?_take A.nodes c.nodes h.index

/-- A rollback keeps the nodes before the checkpoint, whose operands are before it too. -/
theorem Faithful.rollback (hA : A.Faithful) (c : Checkpoint) : (A.rollback c).Faithful where
  index_iff := Indexed.rollback hA.index_iff c
  operand h n hn k hk := by
    rw [node?_rollback] at hn
    obtain ⟨hbefore, hn⟩ := Option.ite_none_right_eq_some.1 hn
    obtain ⟨hstored, hlt⟩ := hA.operand h n hn k hk
    refine ⟨?_, hlt⟩
    rw [← node?_isSome_iff, node?_rollback, if_pos (Nat.lt_trans hlt hbefore), node?_isSome_iff]
    exact hstored
  proper h n hn := by
    rw [node?_rollback] at hn
    exact hA.proper h n (Option.ite_none_right_eq_some.1 hn).2
  size_le := by
    have hsize : (A.rollback c).size ≤ A.size := by
      simp only [Arena.rollback, size, Array.take_eq_extract, Array.size_extract, Nat.sub_zero]
      exact Nat.min_le_right _ _
    exact Nat.le_trans hsize hA.size_le

/-- Different proper nodes, each after its operands, make a faithful arena. -/
theorem Faithful.ofNodes {names : List String} {ns : List Node} {hnames : names.Nodup}
    (hns : ns.Nodup) (hoperands : ∀ p ∈ ns.zipIdx, ∀ c ∈ p.1.children, c.index < p.2)
    (hproper : ∀ n ∈ ns, n.Proper) (hlength : ns.length ≤ 100) :
    (Arena.ofNodes names ns hnames).Faithful where
  index_iff := Indexed.ofNodes hns
  operand h n hn c hc := by
    have hlt := hoperands (n, h.index)
      (List.mem_zipIdx_iff_getElem?.2 (node?_ofNodes.symm.trans hn)) c hc
    exact ⟨contains_iff.2 (Nat.lt_trans hlt (contains_iff.1 (contains_of_node? hn))), hlt⟩
  proper h n hn := hproper n (List.mem_of_getElem? (node?_ofNodes.symm.trans hn))
  size_le := by simpa [Arena.ofNodes, size] using hlength

/-- Stored nodes are equal exactly if their handles are. -/
theorem Faithful.handle_eq_iff (hA : A.Faithful) {k : Handle} {m : Node}
    (hn : A.node? h = some n) (hm : A.node? k = some m) : h = k ↔ n = m := by
  constructor
  · rintro rfl
    exact Option.some.inj (hn.symm.trans hm)
  · rintro rfl
    exact Option.some.inj (((hA.index_iff n h).2 hn).symm.trans ((hA.index_iff n k).2 hm))

/-! ### Names -/

section Names

variable {name other : String} {id : Nat}

theorem isSome_symbolName?_iff : (A.symbolName? id).isSome = true ↔ id < A.symbols.size := by
  simp [symbolName?, Symbols.name?, Symbols.size]

theorem symbolId?_eq_some_iff : A.symbolId? name = some id ↔
    ∃ place, A.symbols.place? name = some place ∧ Symbols.idAt place = id :=
  Option.map_eq_some_iff

theorem place?_lt (h : A.symbols.place? name = some id) : id < A.symbols.size :=
  (Array.getElem?_eq_some_iff.1 (Symbols.place?_eq_some_iff.1 h)).1

/-- A rollback keeps the places of the names before the checkpoint. -/
theorem place?_rollback (c : Checkpoint) : (A.rollback c).symbols.place? name = some id ↔
    A.symbols.place? name = some id ∧ id < c.symbols := by
  rw [Symbols.place?_eq_some_iff, Symbols.place?_eq_some_iff]
  change (A.symbols.names.take c.symbols)[id]? = some name ↔ _
  rw [getElem?_take, Option.ite_none_right_eq_some, and_comm]

/-- An arena that grows keeps the places of its names, and gives later ones to others. -/
theorem GrowsTo.place? (hAB : A.GrowsTo B) : A.symbols.place? name = some id ↔
    B.symbols.place? name = some id ∧ id < A.symbols.size := by
  have hback : (B.rollback A.checkpoint).symbols.place? name = some id ↔
      B.symbols.place? name = some id ∧ id < A.symbols.size := place?_rollback A.checkpoint
  rwa [hAB.rollback] at hback

/-- The name has the place, and the other name has none or a later one. -/
structure NamedBefore (A : Arena) (name : String) (place : Nat) (other : String) : Prop where
  known : A.symbols.place? name = some place
  lt : ∀ j, A.symbols.place? other = some j → place < j

theorem NamedBefore.grow (hA : A.NamedBefore name id other) (hAB : A.GrowsTo B) :
    B.NamedBefore name id other where
  known := (hAB.place?.1 hA.known).1
  lt j hj := by
    by_cases hold : j < A.symbols.size
    · exact hA.lt j (hAB.place?.2 ⟨hj, hold⟩)
    · exact Nat.lt_of_lt_of_le (place?_lt hA.known) (Nat.le_of_not_lt hold)

theorem NamedBefore.rollback (hA : A.NamedBefore name id other) {c : Checkpoint}
    (hknown : ((A.rollback c).symbols.place? name).isSome = true) :
    (A.rollback c).NamedBefore name id other where
  known := by
    obtain ⟨j, hj⟩ := Option.isSome_iff_exists.1 hknown
    rw [hj, ← hA.known, ((place?_rollback c).1 hj).1]
  lt j hj := hA.lt j ((place?_rollback c).1 hj).1

/-- The earlier of two names has the smaller number, as long as there are enough numbers. -/
theorem NamedBefore.id?_lt (hA : A.NamedBefore name id other) {j : Nat}
    (hj : A.symbolId? other = some j) :
    A.symbolId? name = some (Symbols.idAt id) ∧ Symbols.idAt id ≤ j ∧
      (A.symbols.size ≤ Symbols.maxId + 1 → Symbols.idAt id < j) := by
  obtain ⟨place, hplace, rfl⟩ := symbolId?_eq_some_iff.1 hj
  have hlt := hA.lt place hplace
  have hplaceLt := place?_lt hplace
  refine ⟨symbolId?_eq_some_iff.2 ⟨id, hA.known, rfl⟩, ?_, fun hsize => ?_⟩
  · simp only [Symbols.idAt]
    omega
  · rw [Symbols.idAt_of_le (by omega), Symbols.idAt_of_le (by omega)]
    exact hlt

end Names

/-! ### Operations -/

namespace Allocation

variable {I : Arena → Prop} [Upheld I]

theorem build_yields (hA : I A) {a : Allocation} (ha : ∀ h ∈ a.operands, Stored h A) :
    Yields id I a.build A Stored := by
  cases a with
  | integer n => exact Build.integer_yields hA n
  | rational q => exact Build.rational_yields hA q
  | float x => exact Build.float_yields hA x
  | symbol name => exact Build.symbol_yields hA name
  | constant c => exact Build.constant_yields hA c
  | undefined => exact Build.undefined_yields hA
  | unreal => exact Build.unreal_yields hA
  | sum terms => exact Build.sum_yields hA ha
  | product factors => exact Build.product_yields hA ha
  | power a b => exact Build.power_yields hA (ha a (by simp [operands])) (ha b (by simp [operands]))
  | opposite a => exact Build.opposite_yields hA (ha a (by simp [operands]))
  | quotient a b =>
    exact Build.quotient_yields hA (ha a (by simp [operands])) (ha b (by simp [operands]))
  | difference a b =>
    exact Build.difference_yields hA (ha a (by simp [operands])) (ha b (by simp [operands]))
  | apply code args => exact Build.applyCode_yields hA code ha
  | call name arg => exact Build.call_yields hA name (ha arg (by simp [operands]))
  | matrix rows columns entries => exact Build.matrix_yields hA rows columns ha

end Allocation

end Arena

open Arena

namespace History

variable {limit : Nat} {S T : History} {name : String}

/-- The operands of the operation are stored. -/
def Admits (S : History) : Action → Prop
  | .allocate a => ∀ h ∈ a.operands, Stored h S.arena
  | _ => True

/-- One operation on stored operands. -/
def StoredStep (S T : History) : Prop :=
  ∃ op, S.Permits op ∧ S.Admits op ∧ T = S.perform op

/-- A history that operations on stored operands lead to from the empty arena with a limit. -/
def Reachable (limit : Nat) (S : History) : Prop :=
  Relation.ReflTransGen StoredStep { arena := .withLimit limit } S

/-- One operation on stored operands that leaves a name known. -/
def StepKnowing (name : String) (S T : History) : Prop :=
  S.StoredStep T ∧ (T.arena.symbolId? name).isSome = true

theorem faithful_perform (hS : S.arena.Faithful) {op : Action} (hop : S.Admits op) :
    (S.perform op).arena.Faithful := by
  cases op with
  | allocate a => exact (Allocation.build_yields hS hop).keeps
  | number name => exact (Build.internSymbol_yields hS name).keeps
  | checkpoint => exact hS
  | rollback c => exact hS.rollback c

theorem limit_perform (S : History) (op : Action) :
    (S.perform op).arena.limit = S.arena.limit := by
  cases op with
  | allocate a => exact (a.build_grows S.arena).limit_eq
  | number name => rfl
  | checkpoint => rfl
  | rollback c => rfl

/-- Both names keep their places while the first one stays known. -/
theorem namedBefore_of_step {place : Nat} {other : String}
    (hS : S.arena.NamedBefore name place other) (hstep : StepKnowing name S T) :
    T.arena.NamedBefore name place other := by
  obtain ⟨⟨op, -, -, rfl⟩, hknown⟩ := hstep
  rw [symbolId?, Symbols.id?, Option.isSome_map] at hknown
  cases op with
  | allocate a => exact hS.grow (a.build_grows S.arena)
  | number name => exact hS.grow (.internSymbol S.arena name)
  | checkpoint => exact hS
  | rollback c => exact hS.rollback hknown

theorem namedBefore_of_run {place : Nat} {other : String}
    (hS : S.arena.NamedBefore name place other)
    (hrun : Relation.ReflTransGen (StepKnowing name) S T) :
    T.arena.NamedBefore name place other := by
  induction hrun with
  | refl => exact hS
  | tail _ hstep ih => exact namedBefore_of_step ih hstep

theorem Reachable.faithful (hS : S.Reachable limit) :
    S.arena.Faithful ∧ S.arena.limit ≤ limit := by
  induction hS with
  | refl =>
    refine ⟨faithful_withLimit limit, ?_⟩
    dsimp only [withLimit]
    split <;> omega
  | tail _ hstep ih =>
    obtain ⟨op, -, hop, rfl⟩ := hstep
    exact ⟨faithful_perform ih.1 hop, (limit_perform _ op).symm ▸ ih.2⟩

/-- **Operations on stored operands lead to arenas that store nodes and names faithfully.**  The
number of a name is its place; as a number is a word of 32 bits, the names behind the largest one
share it.  Up to there names and numbers correspond to each other, in first-seen order. -/
theorem faithful_of_reachable (hS : S.Reachable limit) :
    S.arena.Faithful ∧ S.arena.size ≤ limit ∧
      (∀ h k n m, S.arena.node? h = some n → S.arena.node? k = some m → (h = k ↔ n = m)) ∧
      (∀ id, (S.arena.symbolName? id).isSome = true ↔ id < S.arena.symbols.size) ∧
      (∀ name id, S.arena.symbolId? name = some id ↔
        ∃ place, S.arena.symbolName? place = some name ∧ min place Symbols.maxId = id) ∧
      (S.arena.symbols.size ≤ Symbols.maxId + 1 → ∀ name id,
        S.arena.symbolId? name = some id ↔ S.arena.symbolName? id = some name) ∧
      ∀ name other id j T, S.arena.symbolId? name = some id → S.arena.symbolId? other = none →
        Relation.ReflTransGen (StepKnowing name) S T → T.arena.symbolId? other = some j →
          T.arena.symbolId? name = some id ∧ id ≤ j ∧
            (T.arena.symbols.size ≤ Symbols.maxId + 1 → id < j) := by
  obtain ⟨hfaithful, hlimit⟩ := hS.faithful
  refine ⟨hfaithful, Nat.le_trans hfaithful.size_le hlimit, fun h k n m => hfaithful.handle_eq_iff,
    fun id => isSome_symbolName?_iff, fun name id => Symbols.id?_eq_some_iff,
    fun hsize name id => Symbols.id?_eq_some_iff_name? hsize, ?_⟩
  intro name other id j T hname hother hrun hj
  obtain ⟨place, hplace, rfl⟩ := symbolId?_eq_some_iff.1 hname
  have hbefore : S.arena.NamedBefore name place other :=
    ⟨hplace, fun j hj => by simp [Option.map_eq_none_iff.1 hother] at hj⟩
  exact (namedBefore_of_run hbefore hrun).id?_lt hj

/-- The number zero, with a checkpoint before and one behind it. -/
def zeroHistory : History :=
  ((perform { arena := .withLimit 3 } .checkpoint).perform (.allocate (.integer 0))).perform
    .checkpoint

/-- The symbol `x` in the place of the number, behind a rollback to the checkpoint that was taken
when there was a node, but no name. -/
def staleHistory : History :=
  ((zeroHistory.perform (.rollback ⟨0, 0⟩)).perform (.allocate (.symbol "x"))).perform
    (.rollback ⟨1, 0⟩)

theorem taken_zeroHistory : zeroHistory.taken = [⟨1, 0⟩, ⟨0, 0⟩] := by
  simp [zeroHistory, perform, Action.run, Allocation.build, Build.integer, Build.intern_run,
    withLimit, maxLimit, Arena.checkpoint, Symbols.size]

theorem reachable_staleHistory : staleHistory.Reachable 3 := by
  have hzero : zeroHistory.Reachable 3 :=
    .tail (.tail (.single ⟨.checkpoint, trivial, trivial, rfl⟩)
      ⟨.allocate (.integer 0), trivial, nofun, rfl⟩) ⟨.checkpoint, trivial, trivial, rfl⟩
  have hback : (zeroHistory.perform (.rollback ⟨0, 0⟩)).Reachable 3 :=
    hzero.tail ⟨.rollback ⟨0, 0⟩, by simp [Permits, taken_zeroHistory], trivial, rfl⟩
  refine (hback.tail ⟨.allocate (.symbol "x"), trivial, nofun, rfl⟩).tail
    ⟨.rollback ⟨1, 0⟩, ?_, trivial, rfl⟩
  simp [Permits, perform, taken_zeroHistory]

/-- The node of a symbol whose name is forgotten is still stored faithfully. -/
theorem faithful_of_reachable_staleHistory :
    staleHistory.Reachable 3 ∧ staleHistory.arena.Faithful ∧ staleHistory.arena.size ≤ 3 ∧
      staleHistory.arena.size = 1 ∧ staleHistory.arena.symbols.size = 0 := by
  have hfaithful := faithful_of_reachable reachable_staleHistory
  refine ⟨reachable_staleHistory, hfaithful.1, hfaithful.2.1, ?_, ?_⟩
  · simp [staleHistory, zeroHistory, perform, Action.run, Allocation.build, Build.integer,
      Build.symbol, bind_run, Build.intern_run, Build.internSymbol_run, Arena.rollback, withLimit,
      maxLimit, Arena.size]
  · simp [staleHistory, perform, Action.run, Arena.rollback, Symbols.truncate, Symbols.size]

end History

end Resolvent

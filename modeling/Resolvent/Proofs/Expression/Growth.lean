import Resolvent.Expression.Expansion
import Resolvent.Expression.Storage
import Resolvent.Proofs.Expression.Along
import Resolvent.Term.Import

/-!
# Growth of the arena

An arena grows to another one if that has at least as many nodes and names, and rolling it back to
where the first one ended gives the first one back: its nodes, their index and the names.  Growing
is a preorder (`Arena.GrowsTo.trans`), because a rollback to an early checkpoint may stop at a later
one.  Storing a node or a name lets the arena grow, and so does everything that is built from these.

An expression takes at most as many nodes as it has parts, and fewer if some of these are stored
already.  Where there is room for all of them, it is stored (`Build.store_fits`).
-/

namespace Resolvent

namespace Symbols

theorem truncate_truncate (s : Symbols) {n k : Nat} (h : n ≤ k) :
    (s.truncate k).truncate n = s.truncate n :=
  eq_of_names (by simp [truncate, Nat.min_eq_left h])

theorem name?_truncate (s : Symbols) (n id : Nat) :
    (s.truncate n).name? id = if id < n then s.name? id else none := getElem?_take s.names n id

theorem size_le_intern (s : Symbols) (name : String) : s.size ≤ (s.intern name).2.size := by
  rcases h : s.place? name with - | place
  · simp [size, (names_intern_of_new h).2]
  · simp [intern_of_place? h]

/-- Forgetting the names that are new gives the table back. -/
theorem truncate_intern (s : Symbols) (name : String) :
    (s.intern name).2.truncate s.size = s := by
  rcases h : s.place? name with - | place
  · exact eq_of_names (by simp [truncate, size, (names_intern_of_new h).2])
  · rw [intern_of_place? h]
    exact s.truncate_size

/-- The table of different names. -/
def ofNames (names : List String) (h : names.Nodup) : Symbols where
  names := names.toArray
  places := .ofList names.zipIdx
  mirrors := by simpa using Mirrors.ofList id id (fun _ => rfl) (fun _ => rfl) h

end Symbols

namespace Arena

/-! ### Rollback -/

theorem rollback_index (A : Arena) (c : Checkpoint) (n : Node) :
    (A.rollback c).index[n]? = if n ∈ A.nodes.toList.drop c.nodes then none else A.index[n]? :=
  getElem?_foldl_erase _ _ _

theorem eq_of_index {A B : Arena} (hnodes : A.nodes = B.nodes)
    (hindex : ∀ n : Node, A.index[n]? = B.index[n]?) (hsymbols : A.symbols = B.symbols)
    (hlimit : A.limit = B.limit) : A = B := by
  have hequal : A.index = B.index := Std.ExtHashMap.ext_getElem? hindex
  cases A
  cases B
  simp_all

/-- A rollback to a checkpoint with all the nodes forgets names only. -/
theorem rollback_of_size_le (A : Arena) {c : Checkpoint} (h : A.size ≤ c.nodes) :
    A.rollback c = { A with symbols := A.symbols.truncate c.symbols } := by
  refine eq_of_index ?_ (fun n => ?_) rfl rfl
  · exact Array.extract_eq_self_of_le h
  · -- nothing is dropped, so the index stays
    rw [rollback_index, List.drop_eq_nil_of_le (by simpa [size] using h)]
    rfl

theorem rollback_checkpoint (A : Arena) : A.rollback A.checkpoint = A := by
  rw [A.rollback_of_size_le (Nat.le_refl _)]
  exact congrArg (fun symbols => { A with symbols }) A.symbols.truncate_size

/-- A rollback may stop at a later checkpoint. -/
theorem rollback_rollback (A : Arena) {c k : Checkpoint} (hnodes : c.nodes ≤ k.nodes)
    (hsymbols : c.symbols ≤ k.symbols) : (A.rollback k).rollback c = A.rollback c := by
  refine eq_of_index ?_ (fun n => ?_) (A.symbols.truncate_truncate hsymbols) rfl
  · simp [rollback, Nat.min_eq_left hnodes]
  · -- what the late rollback drops and what is then dropped is what the early rollback drops
    have hdrop : n ∈ A.nodes.toList.drop c.nodes ↔
        n ∈ (A.rollback k).nodes.toList.drop c.nodes ∨ n ∈ A.nodes.toList.drop k.nodes := by
      have htake : (A.rollback k).nodes.toList = A.nodes.toList.take k.nodes := by simp [rollback]
      have hlate : A.nodes.toList.drop k.nodes =
          (A.nodes.toList.drop c.nodes).drop (k.nodes - c.nodes) := by
        rw [List.drop_drop, Nat.add_sub_cancel' hnodes]
      rw [htake, hlate, ← List.mem_append, List.drop_take, List.take_append_drop]
    rw [rollback_index, rollback_index, rollback_index]
    by_cases hearly : n ∈ (A.rollback k).nodes.toList.drop c.nodes
    · rw [if_pos hearly, if_pos (hdrop.2 (.inl hearly))]
    · rw [if_neg hearly]
      simp [hdrop, hearly]

/-- An arena with at least the nodes and names of another, which a rollback gives back. -/
structure GrowsTo (A B : Arena) : Prop where
  size_le : A.size ≤ B.size
  symbols_le : A.symbols.size ≤ B.symbols.size
  rollback : B.rollback A.checkpoint = A

namespace GrowsTo

variable {A B C : Arena}

theorem refl (A : Arena) : A.GrowsTo A := ⟨Nat.le_refl _, Nat.le_refl _, A.rollback_checkpoint⟩

theorem trans (h : A.GrowsTo B) (h' : B.GrowsTo C) : A.GrowsTo C where
  size_le := Nat.le_trans h.size_le h'.size_le
  symbols_le := Nat.le_trans h.symbols_le h'.symbols_le
  rollback := by
    rw [← C.rollback_rollback (k := B.checkpoint) h.size_le h.symbols_le, h'.rollback, h.rollback]

theorem limit_eq (h : A.GrowsTo B) : B.limit = A.limit := by
  have hlimit : (B.rollback A.checkpoint).limit = A.limit := congrArg Arena.limit h.rollback
  exact hlimit

instance : IsPreorder Arena GrowsTo where
  refl := refl
  trans _ _ _ := trans

/-- A node that is not in the index is stored behind the others. -/
theorem push {n : Node} (h : Handle) (hn : A.index[n]? = none) :
    A.GrowsTo { A with nodes := A.nodes.push n, index := A.index.insert n h } where
  size_le := by simp [size]
  symbols_le := Nat.le_refl _
  rollback := by
    refine eq_of_index ?_ (fun k => ?_) A.symbols.truncate_size rfl
    · simp [Arena.rollback, checkpoint]
    · -- only the new node is erased, and it was not in the index before
      have hdrop : (A.nodes.push n).toList.drop A.checkpoint.nodes = [n] := by
        simp [checkpoint]
      rw [rollback_index, hdrop, Std.ExtHashMap.getElem?_insert]
      by_cases hk : k = n
      · simp [hk, hn]
      · simp [hk, Ne.symm hk]

theorem internSymbol (A : Arena) (name : String) :
    A.GrowsTo { A with symbols := (A.symbols.intern name).2 } where
  size_le := Nat.le_refl _
  symbols_le := A.symbols.size_le_intern name
  rollback := by
    rw [rollback_of_size_le _ (Nat.le_refl _)]
    exact congrArg (fun symbols => { A with symbols }) (A.symbols.truncate_intern name)

end GrowsTo

end Arena

/-! ### Computations that store nodes -/

namespace Build

open Along

variable {ε : Type}

theorem intern_run (n : Node) (A : Arena) :
    intern n A = match A.index[n]? with
      | some h => (.ok h, A)
      | none =>
        if A.nodes.size < A.limit then
          (.ok ⟨A.nodes.size⟩,
            { A with nodes := A.nodes.push n, index := A.index.insert n ⟨A.nodes.size⟩ })
        else (.error ⟨A.limit⟩, A) := by
  unfold intern
  rw [bind_run]
  change (match A.index[n]? with | some h => _ | none => _ : Build Handle) A = _
  rcases A.index[n]? with - | h
  · dsimp only
    split <;> rfl
  · rfl

theorem intern_grows (n : Node) : Along Arena.GrowsTo id (intern n) := by
  intro A
  rw [intern_run]
  split
  · exact .refl A
  · next hnew =>
    split
    · exact .push _ hnew
    · exact .refl A

theorem internSymbol_run (name : String) (A : Arena) :
    internSymbol name A =
      (.ok (A.symbols.intern name).1, { A with symbols := (A.symbols.intern name).2 }) := rfl

theorem internSymbol_grows (name : String) : Along Arena.GrowsTo id (internSymbol name) :=
  fun A => Arena.GrowsTo.internSymbol A name

theorem integer_grows (n : Int) : Along Arena.GrowsTo id (integer n) := intern_grows _

theorem rational_grows (q : Rat) : Along Arena.GrowsTo id (rational q) := by
  unfold rational
  split
  · exact integer_grows _
  · exact intern_grows _

theorem symbol_grows (name : String) : Along Arena.GrowsTo id (symbol name) :=
  (internSymbol_grows name).bind fun _ => intern_grows _

theorem sum_grows (hs : List Handle) : Along Arena.GrowsTo id (sum hs) := by
  unfold sum
  split
  · exact integer_grows _
  · exact Along.pure _
  · exact intern_grows _

theorem product_grows (hs : List Handle) : Along Arena.GrowsTo id (product hs) := by
  unfold product
  split
  · exact integer_grows _
  · exact Along.pure _
  · exact intern_grows _

theorem difference_grows (a b : Handle) : Along Arena.GrowsTo id (difference a b) :=
  (intern_grows _).bind fun _ => sum_grows _

theorem call_grows (name : String) (arg : Handle) : Along Arena.GrowsTo id (call name arg) :=
  (internSymbol_grows name).bind fun _ => intern_grows _

mutual

theorem store_grows : ∀ e : Expression, Along Arena.GrowsTo id (store e)
  | .integer _ | .fraction _ | .float _ | .symbol _ | .constant _ | .undefined | .unreal =>
    intern_grows _
  | .sum args | .product args | .apply _ args | .matrix _ _ args =>
    (storeAll_grows args).bind fun _ => intern_grows _
  | .opposite a | .call _ a => (store_grows a).bind fun _ => intern_grows _
  | .power a b | .quotient a b =>
    (store_grows a).bind fun _ => (store_grows b).bind fun _ => intern_grows _

theorem storeAll_grows : ∀ es : List Expression, Along Arena.GrowsTo id (storeAll es)
  | [] => Along.pure _
  | e :: es => (store_grows e).bind fun _ => (storeAll_grows es).bind fun _ => Along.pure _

end

theorem lift_grows {α : Type} (f : Exhausted → ε) {m : Build α} (hm : Along Arena.GrowsTo id m) :
    Along Arena.GrowsTo id (lift f m) := hm.adapt f

end Build

/-! ### Terms -/

namespace Head

open Build

theorem buildSymbol_grows (placeholders : List Handle) (name : String) :
    Along Arena.GrowsTo id (buildSymbol placeholders name) := by
  unfold buildSymbol
  split
  · split
    · exact Along.pure _
    · exact Along.throw _
  · repeat' split
    all_goals
      first
        | exact Along.throw _
        | exact lift_grows _ (intern_grows _)
        | exact lift_grows _ (rational_grows _)
        | exact lift_grows _ (symbol_grows _)

theorem buildOperator_grows (o : Operator) (operands : List (Head × Handle)) :
    Along Arena.GrowsTo id (buildOperator o operands) := by
  unfold buildOperator
  split
  · exact lift_grows _ (sum_grows _)
  · exact lift_grows _ (difference_grows _ _)
  · exact lift_grows _ (product_grows _)
  · exact lift_grows _ (intern_grows _)
  · exact lift_grows _ (intern_grows _)
  · exact lift_grows _ (intern_grows _)
  · exact lift_grows _ ((intern_grows _).bind fun _ => intern_grows _)
  · exact lift_grows _ (intern_grows _)
  · split
    · split
      · exact lift_grows _ (call_grows _ _)
      · exact Along.throw _
    · exact Along.throw _
  · split
    · exact lift_grows _ (intern_grows _)
    · exact Along.throw _
  · exact Along.throw _

theorem build_grows (placeholders : List Handle) (operands : List (Head × Handle)) (h : Head) :
    Along Arena.GrowsTo id (h.build placeholders operands) := by
  cases h with
  | number n => exact lift_grows _ (integer_grows n)
  | symbol name => exact buildSymbol_grows placeholders name
  | op o => exact buildOperator_grows o operands

end Head

theorem Term.build_grows (placeholders : List Handle) (t : Term) :
    Along Arena.GrowsTo id (t.build placeholders) := by
  unfold Term.build
  rw [← Array.foldlM_toList]
  refine (Along.foldlM (fun built c => ?_) _ _).bind fun built => ?_
  · exact (Head.build_grows _ _ _).bind fun h => Along.pure _
  · split
    · exact Along.pure _
    · exact Along.throw _

/-! ### Expansion -/

theorem ExpandM.build_grows {m : Build Handle} (hm : Along Arena.GrowsTo id m) :
    Along Arena.GrowsTo Prod.fst (ExpandM.build m) := by
  rintro ⟨A, s⟩
  have hA := hm A
  unfold ExpandM.build
  dsimp only
  rcases hrun : m A with ⟨e | h, B⟩
  · rwa [hrun] at hA
  · rwa [hrun] at hA

namespace Expression

variable {Δ : Definitions} {mode : Mode} {nested : Parameters → Expression → ExpandM Handle}

theorem expandSymbol_grows
    (hnested : ∀ scope e, Along Arena.GrowsTo Prod.fst (nested scope e)) (scope : Parameters)
    (id : Nat) : Along Arena.GrowsTo Prod.fst (expandSymbol Δ mode nested scope id) := by
  unfold expandSymbol
  split
  · exact Along.pure _
  · split
    · exact hnested _ _
    · refine Along.bind (fun x => .refl _) fun _ => ?_
      exact ExpandM.build_grows (Build.intern_grows _)

theorem expandCall_grows
    (hnested : ∀ scope e, Along Arena.GrowsTo Prod.fst (nested scope e)) (scope : Parameters)
    (name : Nat) (argument : Handle) :
    Along Arena.GrowsTo Prod.fst (expandCall Δ nested scope name argument) := by
  refine Along.bind (fun x => .refl _) fun _ => ?_
  split
  · exact Along.throw _
  · exact hnested _ _
  · exact hnested _ _

-- what a definition stands for is expanded by `nested`, so the induction is on the expression alone
mutual

theorem expandWith_grows
    (hnested : ∀ scope e, Along Arena.GrowsTo Prod.fst (nested scope e)) (scope : Parameters) :
    ∀ e : Expression, Along Arena.GrowsTo Prod.fst (expandWith Δ mode nested scope e)
  | integer _ | fraction _ | float _ | constant _ | undefined | unreal =>
    ExpandM.build_grows (Build.intern_grows _)
  | symbol id => expandSymbol_grows hnested scope id
  | sum args => (expandAllWith_grows hnested scope args).bind fun _ =>
    ExpandM.build_grows (Build.sum_grows _)
  | product args => (expandAllWith_grows hnested scope args).bind fun _ =>
    ExpandM.build_grows (Build.product_grows _)
  | power a b | quotient a b =>
    (expandWith_grows hnested scope a).bind fun _ =>
      (expandWith_grows hnested scope b).bind fun _ =>
        ExpandM.build_grows (Build.intern_grows _)
  | opposite a => (expandWith_grows hnested scope a).bind fun _ =>
    ExpandM.build_grows (Build.intern_grows _)
  | apply _ args => (expandAllWith_grows hnested scope args).bind fun _ =>
    ExpandM.build_grows (Build.intern_grows _)
  | call name a => (expandWith_grows hnested scope a).bind fun argument =>
    expandCall_grows hnested scope name argument
  | matrix _ _ _ => Along.throw _

theorem expandAllWith_grows
    (hnested : ∀ scope e, Along Arena.GrowsTo Prod.fst (nested scope e)) (scope : Parameters) :
    ∀ es : List Expression, Along Arena.GrowsTo Prod.fst (expandAllWith Δ mode nested scope es)
  | [] => Along.pure _
  | e :: es => (expandWith_grows hnested scope e).bind fun _ =>
    (expandAllWith_grows hnested scope es).bind fun _ => Along.pure _

end

theorem expandAt_grows (depth : Nat) (scope : Parameters) (e : Expression) :
    Along Arena.GrowsTo Prod.fst (expandAt Δ mode depth scope e) := by
  induction depth generalizing scope e with
  | zero => exact expandWith_grows (fun _ _ => Along.throw _) scope e
  | succ depth ih => exact expandWith_grows ih scope e

end Expression

/-! ### Room for expressions -/

mutual

/-- The number of parts of an expression. -/
def Expression.parts : Expression → Nat
  | .integer _ | .fraction _ | .float _ | .symbol _ | .constant _ | .undefined | .unreal => 1
  | .sum args | .product args | .apply _ args | .matrix _ _ args =>
    Expression.partsOfAll args + 1
  | .opposite a | .call _ a => a.parts + 1
  | .power a b | .quotient a b => a.parts + (b.parts + 1)

/-- The number of parts of expressions. -/
def Expression.partsOfAll : List Expression → Nat
  | [] => 0
  | e :: es => e.parts + Expression.partsOfAll es

end

/-- There is room for a number of nodes. -/
def Arena.HasRoomFor (A : Arena) (n : Nat) : Prop := A.size + n ≤ A.limit

/-- The arena has grown by a number of nodes at most. -/
structure Arena.GrownBy (n : Nat) (A B : Arena) : Prop where
  size_le : B.size ≤ A.size + n
  limit_eq : B.limit = A.limit

namespace Arena

variable {A B C : Arena} {n k : Nat}

theorem GrownBy.refl (A : Arena) : GrownBy 0 A A := ⟨Nat.le_refl _, rfl⟩

theorem GrownBy.trans (h : GrownBy n A B) (h' : GrownBy k B C) : GrownBy (n + k) A C where
  size_le := by
    have hB := h.size_le
    have hC := h'.size_le
    omega
  limit_eq := h'.limit_eq.trans h.limit_eq

/-- What is left of the room. -/
theorem GrownBy.hasRoomFor (h : GrownBy n A B) (hA : A.HasRoomFor (n + k)) : B.HasRoomFor k := by
  unfold HasRoomFor at *
  rw [h.limit_eq]
  have hB := h.size_le
  omega

theorem HasRoomFor.of_le (hA : A.HasRoomFor k) (h : n ≤ k) : A.HasRoomFor n :=
  show A.size + n ≤ A.limit from Nat.le_trans (Nat.add_le_add_left h _) hA

end Arena

namespace Build

variable {α β : Type} {n k : Nat}

/-- With room for a number of nodes the computation succeeds, and it stores no more than these. -/
def Fits (n : Nat) (m : Build α) : Prop :=
  ∀ A : Arena, A.HasRoomFor n → ∃ a B, m A = (.ok a, B) ∧ A.GrownBy n B

theorem Fits.pure (a : α) : Fits 0 (Pure.pure a : Build α) := fun A _ => ⟨a, A, rfl, .refl A⟩

theorem Fits.bind {m : Build α} {f : α → Build β} (hm : Fits n m) (hf : ∀ a, Fits k (f a)) :
    Fits (n + k) (m >>= f) := by
  intro A hA
  obtain ⟨a, B, hrun, hB⟩ := hm A (hA.of_le (Nat.le_add_right _ _))
  obtain ⟨b, C, hrun', hC⟩ := hf a B (hB.hasRoomFor hA)
  refine ⟨b, C, ?_, hB.trans hC⟩
  rw [bind_run, hrun]
  exact hrun'

theorem intern_fits (n : Node) : Fits 1 (intern n) := by
  intro A hA
  rw [intern_run]
  split
  · next h _ => exact ⟨h, A, rfl, Nat.le_succ _, rfl⟩
  · rw [if_pos (show A.nodes.size < A.limit from hA)]
    exact ⟨_, _, rfl, by simp [Arena.size], rfl⟩

mutual

/-- Where there is room for all parts of an expression, it is stored. -/
theorem store_fits : ∀ e : Expression, Fits e.parts (store e)
  | .integer _ | .fraction _ | .float _ | .symbol _ | .constant _ | .undefined | .unreal =>
    intern_fits _
  | .sum args | .product args | .apply _ args | .matrix _ _ args =>
    (storeAll_fits args).bind fun _ => intern_fits _
  | .opposite a | .call _ a => (store_fits a).bind fun _ => intern_fits _
  | .power a b | .quotient a b =>
    (store_fits a).bind fun _ => (store_fits b).bind fun _ => intern_fits _

theorem storeAll_fits : ∀ es : List Expression, Fits (Expression.partsOfAll es) (storeAll es)
  | [] => .pure _
  | e :: es => (store_fits e).bind fun _ => (storeAll_fits es).bind fun _ => .pure _

end

end Build

end Resolvent

import Resolvent.Proofs.Rewriting.Choices
import Resolvent.Proofs.Term.Values

/-!
# Simplified terms

Adding a term to an empty graph gives its cells classes with their values, operands before their
users (`EqualityGraph.Added`).  Writing the choices of a sound graph gives terms with the values of
the classes, which cost no more than recorded (`EqualityGraph.write_written`).  Together with what
saturation keeps and what the rounds of improvements reach, the cheapest equal term is well-formed,
has the value of the term and does not cost more, whatever the limits
(`Term.minimize_sound`).
-/

namespace Resolvent

namespace EqualityGraph

variable {α : Type} {f : Head → List α → α} {val : Nat → α} {d : α} {g : EqualityGraph}
  {ch : Array (Option Choice)} {c : Cell} {i k n : Nat} {t : Term} {s : Writing}

/-! ### Adding a term -/

/-- No classes have been joined, and the operands of known nodes are older than their classes. -/
structure Apart (g : EqualityGraph) : Prop where
  /-- No classes have been joined. -/
  find_eq : ∀ i, g.find i = i
  /-- Known nodes are in their classes. -/
  mem_nodes : ∀ {c : Cell} {i : Nat}, g.classOf[c]? = some i → c ∈ g.nodes i
  /-- Operands are older. -/
  operand_lt : ∀ {c : Cell} {i : Nat}, g.classOf[c]? = some i → ∀ k ∈ c.operands, k < i

theorem Apart.empty : Apart {} where
  find_eq _ := rfl
  mem_nodes h := by simp at h
  operand_lt h := by simp at h

/-- The class of a node that is added has the node, and the operands are older. -/
theorem Apart.add (h : g.Apart) (hsound : Sound f val g)
    (hc : ∀ k ∈ c.operands, k < g.leaders.size) :
    (g.add c).2.Apart ∧ c ∈ (g.add c).2.nodes (g.add c).1 ∧ ∀ k ∈ c.operands, k < (g.add c).1 := by
  have hcanonical : g.canonical c = c := by
    rw [canonical, List.map_congr_left fun k _ => h.find_eq k, List.map_id']
  unfold EqualityGraph.add
  dsimp only
  rw [hcanonical]
  split
  · next i hi =>
    rw [h.find_eq]
    exact ⟨h, h.mem_nodes hi, h.operand_lt hi⟩
  · have hnew : c ∈ (g.addClass c).2.nodes g.leaders.size := by
      have hclass := hsound.tidy.classAt_addClass (c := c) (k := g.leaders.size)
      rw [if_pos rfl] at hclass
      rw [nodes_eq, hclass]
      exact List.mem_cons_self
    have hknown : ∀ {e : Cell} {i : Nat}, (g.addClass c).2.classOf[e]? = some i →
        e = c ∧ i = g.leaders.size ∨ g.classOf[e]? = some i := by
      intro e i he
      rw [EqualityGraph.addClass, Std.HashMap.getElem?_insert] at he
      split at he
      · next heq => exact .inl ⟨(eq_of_beq heq).symm, (Option.some.inj he).symm⟩
      · exact .inr he
    refine ⟨⟨by rw [find_addClass]; exact h.find_eq, fun {e i} he => ?_, fun {e i} he => ?_⟩, hnew,
      hc⟩
    · rcases hknown he with ⟨rfl, rfl⟩ | he
      · exact hnew
      · have hclass := hsound.tidy.classAt_addClass (c := c) (k := i)
        rw [if_neg (Nat.ne_of_lt (hsound.hasValue (.known he)).class_lt)] at hclass
        rw [nodes_eq, hclass.nodes_eq, ← nodes_eq]
        exact h.mem_nodes he
    · rcases hknown he with ⟨rfl, rfl⟩ | he
      · exact hc
      · exact h.operand_lt he

/-- The classes of the cells of a term in a graph of it and what comes before it. -/
def cellsOf (t : Term) (g : EqualityGraph) : Array Nat × EqualityGraph :=
  t.cells.foldl
    (fun (s : Array Nat × EqualityGraph) c =>
      let (i, g) := s.2.add { c with operands := c.operands.map fun k => s.1[k]?.getD 0 }
      (s.1.push i, g))
    (#[], g)

/-- The class of a cell. -/
def cellClass (classes : Array Nat) (k : Nat) : Nat := classes[k]?.getD 0

/-- The cells of a term have classes with their values, which have their nodes, and operands have
older classes. -/
structure Added (f : Head → List α → α) (d : α) (val : Nat → α) (t : Term)
    (s : Array Nat × EqualityGraph) : Prop where
  /-- The graph is sound. -/
  sound : Sound f val s.2
  /-- No classes have been joined. -/
  apart : s.2.Apart
  /-- Each cell has a class. -/
  size_eq : s.1.size = t.cells.size
  /-- The classes are there. -/
  class_lt : ∀ k < t.cells.size, cellClass s.1 k < s.2.leaders.size
  /-- The classes have the values of the cells. -/
  val_eq : ∀ k < t.cells.size, val (cellClass s.1 k) = t.value d f k
  /-- The classes have the nodes of the cells. -/
  keeps : ∀ {k : Nat} {c : Cell}, t.cells[k]? = some c →
    s.2.Keeps (cellClass s.1 k) ⟨c.head, c.operands.map (cellClass s.1)⟩
  /-- Operands have older classes. -/
  operand_lt : ∀ {k : Nat} {c : Cell}, t.cells[k]? = some c →
    ∀ o ∈ c.operands, cellClass s.1 o < cellClass s.1 k

theorem exists_added (ht : t.Ordered) : ∃ val, Added f d val t (cellsOf t {}) := by
  induction t using Term.push_induction with
  | hempty =>
    refine ⟨fun _ => d, ⟨.empty, .empty, rfl, ?_, ?_, ?_, ?_⟩⟩
    · exact fun k hk => absurd hk (Nat.not_lt_zero k)
    · exact fun k hk => absurd hk (Nat.not_lt_zero k)
    · exact fun hc => by simp at hc
    · exact fun hc => by simp at hc
  | hpush t c ih =>
    obtain ⟨ht, hoperands⟩ := Term.ordered_push_iff.1 ht
    obtain ⟨val, h⟩ := ih ht
    generalize hs : cellsOf t {} = s at h
    obtain ⟨classes, g⟩ := s
    let node : Cell := ⟨c.head, c.operands.map (cellClass classes)⟩
    have hnode : ∀ k ∈ node.operands, k < g.leaders.size := by
      intro k hk
      obtain ⟨o, ho, rfl⟩ := List.mem_map.1 hk
      exact h.class_lt o (hoperands o ho)
    obtain ⟨val', hgrows, hlt, hval⟩ := h.sound.add hnode
    obtain ⟨hapart, hmem, holder⟩ := h.apart.add h.sound hnode
    have hpush : cellsOf (t.push c).2 {} = (classes.push (g.add node).1, (g.add node).2) := by
      rw [cellsOf, Term.push, Array.foldl_push, ← cellsOf, hs]
      rfl
    have hclass : ∀ k, cellClass (classes.push (g.add node).1) k =
        if k = t.cells.size then (g.add node).1 else cellClass classes k := by
      intro k
      rw [cellClass, Array.getElem?_push, h.size_eq]
      split <;> rfl
    have hold : ∀ {k}, k < t.cells.size →
        cellClass (classes.push (g.add node).1) k = cellClass classes k :=
      fun hk => by rw [hclass, if_neg (Nat.ne_of_lt hk)]
    have hmap : ∀ {e : Cell}, (∀ o ∈ e.operands, o < t.cells.size) →
        e.operands.map (cellClass (classes.push (g.add node).1)) =
          e.operands.map (cellClass classes) :=
      fun he => List.map_congr_left fun o ho => hold (he o ho)
    rw [hpush]
    refine ⟨val', ⟨hgrows.sound, hapart, ?_, fun k hk => ?_, fun k hk => ?_, fun {k e} he => ?_,
      fun {k e} he o ho => ?_⟩⟩
    · rw [Array.size_push, Term.size_push, h.size_eq]
    · rw [Term.size_push] at hk
      rw [hclass]
      split
      · exact hlt
      · exact Nat.lt_of_lt_of_le (h.class_lt k (by omega)) hgrows.size_le
    · rw [Term.size_push] at hk
      rw [hclass, Term.value_push]
      split
      · rw [hval, List.map_map]
        exact congrArg _ (List.map_congr_left fun o ho => h.val_eq o (hoperands o ho))
      · have hk' : k < t.cells.size := by omega
        rw [hgrows.val_eq _ (h.class_lt k hk'), h.val_eq k hk']
    · rw [Term.getElem?_push] at he
      split at he
      · next hk =>
        cases he
        rw [hclass, if_pos hk, hmap hoperands]
        exact ⟨node, (hapart.find_eq _).symm ▸ hmem, rfl⟩
      · have hk := (Array.getElem?_eq_some_iff.1 he).1
        rw [hold hk, hmap fun o ho => Nat.lt_trans (ht k e he o ho) hk]
        exact hgrows.keeps (h.keeps he)
    · rw [Term.getElem?_push] at he
      split at he
      · next hk =>
        cases he
        rw [hold (hoperands o ho), hclass, if_pos hk]
        exact holder _ (List.mem_map_of_mem ho)
      · have hk := (Array.getElem?_eq_some_iff.1 he).1
        rw [hold hk, hold (Nat.lt_trans (ht k e he o ho) hk)]
        exact h.operand_lt he o ho

/-! ### Reaching the cost of a term -/

/-- What the heads of a term cost. -/
def costs (h : Head) (costs : List Nat) : Nat := costs.foldl addCost h.cost

/-- Where classes have the nodes of the cells of a term, and operands have lower levels than their
users, the choices of a rebuilt graph cost no more than the cells, once there have been more rounds
than the levels of the cells. -/
theorem costAtMost_choices (r level : Nat → Nat) (ht : t.Ordered)
    (hlevel : ∀ k < t.cells.size, level k ≤ g.classes.size)
    (hlt : ∀ {k c}, t.cells[k]? = some c → ∀ o ∈ c.operands, level o < level k)
    (hr : ∀ k < t.cells.size, r k < g.classes.size)
    (hmem : ∀ {k : Nat} {c : Cell}, t.cells[k]? = some c →
      (⟨c.head, c.operands.map r⟩ : Cell) ∈ g.nodes (r k)) :
    g.Supported g.choices ∧
      ∀ k < t.cells.size, CostAtMost (chosen g.choices (r k)) (t.value 0 costs k) := by
  let P (m : Nat) (ch : Array (Option Choice)) : Prop :=
    ∀ k < t.cells.size, level k < m → CostAtMost (chosen ch (r k)) (t.value 0 costs k)
  have hround : ∀ m ch, g.Supported ch → P m ch → P (m + 1) (g.round ch).2 := by
    intro m ch hsupported hP k hk hm
    obtain ⟨c, hc⟩ : ∃ c, t.cells[k]? = some c := ⟨_, Array.getElem?_eq_getElem hk⟩
    obtain ⟨n, hn, hle⟩ := nodeCost?_le (r := r) (v := t.value 0 costs) c.head
      fun o ho => hP o (Nat.lt_trans (ht k c hc o ho) hk)
        (Nat.lt_of_lt_of_le (hlt hc o ho) (Nat.le_of_lt_succ hm))
    obtain ⟨x, hx, hxn⟩ := hsupported.costAtMost_round (hr k hk) (hmem hc) hn
    rw [ht.value_eq hc]
    exact ⟨x, hx, Nat.le_trans hxn hle⟩
  obtain ⟨hsupported, hend⟩ := improve_induction hround (g.classes.size + 1) (m := 0)
    (supported_none g) fun k _ hk => absurd hk (Nat.not_lt_zero _)
  exact ⟨hsupported, fun k hk => hend k hk (by have := hlevel k hk; omega)⟩

/-! ### Writing a term -/

/-- The places of classes have their values and cost no more than their choices. -/
structure Written (f : Head → List α → α) (d : α) (val : Nat → α) (ch : Array (Option Choice))
    (s : Writing) : Prop where
  /-- Operands come first. -/
  ordered : s.term.Ordered
  /-- Places are there. -/
  place_lt : ∀ {i p : Nat}, s.places[i]? = some p → p < s.term.cells.size
  /-- The values. -/
  value_eq : ∀ {i p : Nat}, s.places[i]? = some p → s.term.value d f p = val i
  /-- The costs. -/
  cost_le : ∀ {i p : Nat}, s.places[i]? = some p →
    ∀ x, chosen ch i = some x → s.term.value 0 costs p ≤ x.cost

theorem Written.empty : Written f d val ch {} where
  ordered := .empty
  place_lt h := by simp at h
  value_eq h := by simp at h
  cost_le h := by simp at h

/-- Appending the choice of a class whose operands have places gives the class a place. -/
theorem Written.push {x : Choice} (h : Written f d val ch s) (hg : Sound f val g)
    (hch : g.Supported ch) (hx : chosen ch i = some x)
    (hplaces : ∀ k ∈ x.node.operands, k ∈ s.places) : Written f d val ch (s.push i x.node) := by
  let place (k : Nat) : Nat := s.places[k]?.getD 0
  let c : Cell := ⟨x.node.head, x.node.operands.map place⟩
  have hplace : ∀ k ∈ x.node.operands, s.places[k]? = some (place k) := by
    intro k hk
    rw [Std.HashMap.getElem?_eq_some_getElem (hplaces k hk)]
    simp [place, Std.HashMap.getElem?_eq_some_getElem (hplaces k hk)]
  have hinsert : ∀ {k p : Nat}, (s.push i x.node).places[k]? = some p →
      k = i ∧ p = s.term.cells.size ∨ s.places[k]? = some p := by
    intro k p hp
    change (s.places.insert i s.term.cells.size)[k]? = some p at hp
    rw [Std.HashMap.getElem?_insert] at hp
    split at hp
    · next heq => exact .inl ⟨(eq_of_beq heq).symm, (Option.some.inj hp).symm⟩
    · exact .inr hp
  have hterm : (s.push i x.node).term = (s.term.push c).2 := rfl
  have hoperands : ∀ k ∈ c.operands, k < s.term.cells.size := by
    intro k hk
    obtain ⟨o, ho, rfl⟩ := List.mem_map.1 hk
    exact h.place_lt (hplace o ho)
  refine ⟨Term.ordered_push_iff.2 ⟨h.ordered, hoperands⟩, ?_, ?_, ?_⟩
  · intro k p hp
    rw [hterm, Term.size_push]
    rcases hinsert hp with ⟨-, rfl⟩ | hp
    · exact Nat.lt_succ_self _
    · exact Nat.lt_succ_of_lt (h.place_lt hp)
  · intro k p hp
    rw [hterm, Term.value_push]
    rcases hinsert hp with ⟨rfl, rfl⟩ | hp
    · rw [if_pos rfl, ← (hg.hasValue (.node (hch.mem_nodes hx))).value_eq, List.map_map]
      exact congrArg _ (List.map_congr_left fun o ho => h.value_eq (hplace o ho))
    · rw [if_neg (Nat.ne_of_lt (h.place_lt hp)), h.value_eq hp]
  · intro k p hp y hy
    rw [hterm, Term.value_push]
    rcases hinsert hp with ⟨rfl, rfl⟩ | hp
    · cases hx.symm.trans hy
      obtain ⟨n, hn, hnx⟩ := hch.nodeCost?_le hx
      rw [if_pos rfl, costs, List.map_map]
      exact Nat.le_trans (le_nodeCost? hn fun o ho => h.cost_le (hplace o ho)) hnx
    · rw [if_neg (Nat.ne_of_lt (h.place_lt hp))]
      exact h.cost_le hp y hy

/-- Writing a choice gives its class a place, where the depth of the class allows it. -/
theorem write_written {depth : Nat → Nat} (hg : Sound f val g) (hch : g.Supported ch)
    (hdepth : ∀ {i x k}, chosen ch i = some x → k ∈ x.node.operands → depth k < depth i)
    {fuel : Nat} (h : Written f d val ch s) (hfuel : depth i < fuel)
    (hi : (chosen ch i).isSome = true) :
    Written f d val ch (write ch fuel i s) ∧ (∀ k ∈ s.places, k ∈ (write ch fuel i s).places) ∧
      i ∈ (write ch fuel i s).places := by
  induction fuel generalizing i s with
  | zero => exact absurd hfuel (Nat.not_lt_zero _)
  | succ fuel ih =>
    obtain ⟨x, hx⟩ := Option.isSome_iff_exists.1 hi
    have hoperands : ∀ operands : List Nat, (∀ k ∈ operands, k ∈ x.node.operands) →
        Written f d val ch (operands.foldr (write ch fuel) s) ∧
          (∀ k ∈ s.places, k ∈ (operands.foldr (write ch fuel) s).places) ∧
          ∀ k ∈ operands, k ∈ (operands.foldr (write ch fuel) s).places := by
      intro operands
      induction operands with
      | nil => exact fun _ => ⟨h, fun _ hk => hk, fun k hk => absurd hk List.not_mem_nil⟩
      | cons k operands ihk =>
        intro hsub
        obtain ⟨hwritten, hkept, hplaced⟩ := ihk fun k hk => hsub k (List.mem_cons_of_mem _ hk)
        have hk := hsub k List.mem_cons_self
        obtain ⟨n, hn, -⟩ := hch.nodeCost?_le hx
        obtain ⟨y, hy, -⟩ := costAtMost_of_nodeCost? hn hch.cost_le hk
        obtain ⟨hwritten', hkept', hplaced'⟩ := ih hwritten
          (Nat.lt_of_lt_of_le (hdepth hx hk) (Nat.le_of_lt_succ hfuel)) (by rw [hy]; rfl)
        refine ⟨hwritten', fun j hj => hkept' j (hkept j hj), fun j hj => ?_⟩
        rcases List.mem_cons.1 hj with rfl | hj
        · exact hplaced'
        · exact hkept' j (hplaced j hj)
    rw [write]
    split
    · next hplace => exact ⟨h, fun _ hk => hk, Std.HashMap.contains_iff_mem.1 hplace⟩
    · rw [show ch[i]?.join = some x from hx]
      obtain ⟨hwritten, hkept, hplaced⟩ := hoperands x.node.operands fun _ hk => hk
      refine ⟨hwritten.push hg hch hx hplaced, fun k hk => ?_, ?_⟩
      · exact Std.HashMap.mem_insert.2 (.inr (hkept k hk))
      · exact Std.HashMap.mem_insert.2 (.inl (beq_self_eq_true i))

/-- The term of a class is well-formed, has the value of the class, and costs no more than its
choice. -/
theorem extract_spec {x : Choice} (hg : Sound f val g) (hch : g.Supported g.choices)
    (hx : chosen g.choices i = some x) :
    (g.extract i).WellFormed ∧ (g.extract i).fold d f = val i ∧
      (g.extract i).cost ≤ x.cost := by
  obtain ⟨depth, hle, hdepth⟩ := hch.exists_depth
  obtain ⟨hwritten, -, -⟩ := write_written hg hch hdepth (.empty (d := d))
    (Nat.lt_succ_of_le (hle i)) (by rw [hx]; rfl)
  -- nothing has a place at the start, so the root is written last
  have hroot : write g.choices (g.classes.size + 1) i {} =
      (x.node.operands.foldr (write g.choices g.classes.size) {}).push i x.node := by
    rw [write, if_neg (by simp), show g.choices[i]?.join = some x from hx]
  rw [extract]
  rw [hroot] at hwritten ⊢
  generalize x.node.operands.foldr (write g.choices g.classes.size) {} = s at hwritten ⊢
  have hplace : (s.push i x.node).places[i]? = some s.term.cells.size := by
    change (s.places.insert i s.term.cells.size)[i]? = _
    rw [Std.HashMap.getElem?_insert_self]
  have hsize : (s.push i x.node).term.cells.size = s.term.cells.size + 1 := Term.size_push
  refine ⟨⟨hsize ▸ Nat.succ_pos _, hwritten.ordered⟩, ?_, ?_⟩
  · rw [Term.fold_eq_value, hsize, Nat.add_sub_cancel, hwritten.value_eq hplace]
  · rw [Term.cost, Term.fold_eq_value, hsize, Nat.add_sub_cancel]
    exact hwritten.cost_le hplace x hx

end EqualityGraph

namespace Term

open EqualityGraph

variable {α : Type} {f : Head → List α → α} {d : α} {rules : List Rule} {t : Term}

theorem addTerm_eq (t : Term) (g : EqualityGraph) : g.addTerm t =
    ((cellsOf t g).2.find ((cellsOf t g).1.back?.getD 0), (cellsOf t g).2) := rfl

/-- The cheapest term that is equal by rules whose sides have equal values has the value of the term
and does not cost more, within all limits. -/
theorem minimize_sound (limits : SaturationLimits) (hrules : ∀ r ∈ rules, r.Holds f)
    (ht : t.WellFormed) :
    (t.minimize limits rules).WellFormed ∧ (t.minimize limits rules).fold d f = t.fold d f ∧
      (t.minimize limits rules).cost ≤ t.cost := by
  obtain ⟨val, hadded⟩ := exists_added (f := f) (d := d) ht.ordered
  rw [minimize, addTerm_eq]
  dsimp only
  generalize cellsOf t {} = s at hadded ⊢
  obtain ⟨classes, g₀⟩ := s
  obtain ⟨val', hgrows, hrebuilt⟩ := hadded.sound.saturate limits hrules
  dsimp only
  generalize g₀.saturate limits rules = g at hgrows hrebuilt ⊢
  let last := t.cells.size - 1
  have hlast : last < t.cells.size := Nat.sub_lt ht.nonempty Nat.one_pos
  have hroot : g₀.find (classes.back?.getD 0) = cellClass classes last := by
    rw [hadded.apart.find_eq, Array.back?_eq_getElem?, hadded.size_eq]
    rfl
  rw [hroot]
  -- the class of a cell after saturation, and its age before it, which is its level
  let r (k : Nat) : Nat := g.find (cellClass classes k)
  have hclass : ∀ k < t.cells.size, cellClass classes k < g.leaders.size :=
    fun k hk => Nat.lt_of_lt_of_le (hadded.class_lt k hk) hgrows.size_le
  obtain ⟨hsupported, hcost⟩ := costAtMost_choices (g := g) r (cellClass classes) ht.ordered
    (fun k hk => hgrows.sound.tidy.size_classes ▸ Nat.le_of_lt (hclass k hk))
    hadded.operand_lt
    (fun k hk => hgrows.sound.tidy.size_classes ▸ hgrows.sound.tidy.find_lt _ (hclass k hk))
    (fun {k c} hc => by
      obtain ⟨node, hnode, heq⟩ := hgrows.keeps (hadded.keeps hc)
      rw [hrebuilt _ node hnode, canonical, List.map_map] at heq
      exact heq ▸ hnode)
  obtain ⟨x, hx, hle⟩ := hcost last hlast
  obtain ⟨hwell, hvalue, hbest⟩ := extract_spec (d := d) hgrows.sound hsupported hx
  refine ⟨hwell, ?_, ?_⟩
  · rw [hvalue, hgrows.sound.val_find, hgrows.val_eq _ (hadded.class_lt last hlast),
      hadded.val_eq last hlast, fold_eq_value]
  · exact Nat.le_trans hbest (hle.trans_eq fold_eq_value.symm)

end Term

/-! ### Equality by rules -/

namespace Derives

/-- Equals may be written for all operands. -/
theorem node {ps qs : List Pattern} (head : Head) (h : List.Forall₂ (Derives rules) ps qs) :
    Derives rules (.node head ps) (.node head qs) := by
  have hbehind : ∀ before, Derives rules (.node head (before ++ ps)) (.node head (before ++ qs)) := by
    induction h with
    | nil => exact fun before => .refl _
    | @cons p q ps qs hp _ ih =>
      intro before
      have hrest := ih (before ++ [q])
      rw [List.append_assoc, List.append_assoc] at hrest
      exact (Derives.operand head before ps hp).trans hrest
  exact hbehind []

/-- Patterns up to equality by rules. -/
def setoid (rules : List Rule) : Setoid Pattern where
  r := Derives rules
  iseqv := ⟨.refl, .symm, .trans⟩

/-- A head over patterns up to equality. -/
noncomputable def head (rules : List Rule) (head : Head) (ps : List (Quotient (setoid rules))) :
    Quotient (setoid rules) :=
  Quotient.mk _ (.node head (ps.map Quotient.out))

theorem head_map_mk (h : Head) (ps : List Pattern) :
    head rules h (ps.map (Quotient.mk (setoid rules))) = Quotient.mk _ (.node h ps) := by
  refine Quotient.sound (node h ?_)
  induction ps with
  | nil => exact .nil
  | cons p ps ih => exact .cons (Quotient.mk_out (s := setoid rules) p) ih

mutual

theorem fold_head (σ : Nat → Pattern) : ∀ p : Pattern,
    p.fold (head rules) (fun v => Quotient.mk _ (σ v)) = Quotient.mk (setoid rules) (p.subst σ)
  | .hole _ => rfl
  | .node h ps => by
    rw [Pattern.fold, foldAll_head σ ps, head_map_mk]
    rfl

theorem foldAll_head (σ : Nat → Pattern) : ∀ ps : List Pattern,
    Pattern.foldAll (head rules) (fun v => Quotient.mk _ (σ v)) ps =
      (Pattern.foldAll .node σ ps).map (Quotient.mk (setoid rules))
  | [] => rfl
  | p :: ps => congrArg₂ List.cons (fold_head σ p) (foldAll_head σ ps)

end

/-- Both sides of the rules are the same up to equality by them. -/
theorem holds_head {r : Rule} (hr : r ∈ rules) : r.Holds (head rules) := by
  intro value
  have hvalue : value = fun v => Quotient.mk _ (value v).out :=
    funext fun v => (Quotient.out_eq _).symm
  rw [hvalue, fold_head, fold_head]
  exact Quotient.sound (.rule hr _)

end Derives

/-- The cheapest term that is found is well formed, costs no more and is equal by the rules. -/
theorem Term.minimize_spec (limits : SaturationLimits) (rules : List Rule) {t : Term}
    (ht : t.WellFormed) :
    (t.minimize limits rules).WellFormed ∧ (t.minimize limits rules).cost ≤ t.cost ∧
      Derives rules (t.minimize limits rules).tree t.tree := by
  obtain ⟨hwell, hvalue, hcost⟩ := minimize_sound (d := Quotient.mk (Derives.setoid rules) (.hole 0))
    limits (fun _ hr => Derives.holds_head hr) ht
  rw [hwell.fold_eq_tree _ fun v => Quotient.mk _ (.hole v),
    ht.fold_eq_tree _ fun v => Quotient.mk _ (.hole v), Derives.fold_head, Derives.fold_head,
    Pattern.subst_hole, Pattern.subst_hole] at hvalue
  exact ⟨hwell, hcost, Quotient.exact hvalue⟩

namespace Simplifier

/-- Extracting the cheapest term from a saturated graph minimizes. -/
theorem saturation_minimizes (limits : SaturationLimits) : (saturation limits).Minimizes where
  wellFormed _ t ht := (Term.minimize_spec limits Rules.all ht).1
  exists_class moment t ht := by
    obtain ⟨hwell, hcost, hderives⟩ := Term.minimize_spec limits Rules.all ht
    refine ⟨fun p => p = t.tree ∨ p = (t.minimize limits Rules.all).tree, .inl rfl, .inr rfl, ?_, ?_⟩
    · rintro p q (rfl | rfl) (rfl | rfl)
      exacts [.refl _, hderives.symm, hderives, .refl _]
    · rintro p (rfl | rfl)
      · rw [← ht.cost_eq]
        exact hwell.cost_eq ▸ hcost
      · exact Nat.le_refl _

theorem saturation_repeatable (limits : SaturationLimits) : (saturation limits).Repeatable :=
  fun _ _ _ => rfl

end Simplifier

end Resolvent

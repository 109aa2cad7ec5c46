import Mathlib.Data.List.Basic
import Resolvent.Rewriting.EqualityGraph

/-!
# Values in equality graphs

Given the values of heads over values, an equality graph is sound for an assignment of values to its
classes if joined classes have equal values and every node that the graph records for a class, be it
in the class, among the uses of another, in the table of nodes or pending, has the value of the
class (`EqualityGraph.Sound`).  Every operation keeps the values of the classes that there are and the
nodes that classes have (`EqualityGraph.Grows`): a new class has the value of its node, and only
classes with equal values may be joined.
-/

namespace Resolvent.EqualityGraph

variable {α : Type} {f : Head → List α → α} {val val' : Nat → α} {g g' : EqualityGraph}
  {c d : Cell} {i j k m n : Nat}

/-! ### Joined classes -/

/-- The class at a place, which is empty if there is none. -/
def classAt (g : EqualityGraph) (i : Nat) : EqualityClass := g.classes[i]?.getD {}

/-- Classes are joined to classes that are joined to no other, each of which lists those that are
joined to it. -/
structure Tidy (g : EqualityGraph) : Prop where
  /-- Each class has a place. -/
  size_classes : g.classes.size = g.leaders.size
  /-- Classes are joined to classes. -/
  find_lt : ∀ i < g.leaders.size, g.find i < g.leaders.size
  /-- A class is not joined on. -/
  find_find : ∀ i, g.find (g.find i) = g.find i
  /-- The members of a class are those that are joined to it. -/
  mem_members : ∀ i m, m ∈ (g.classAt i).members ↔ m < g.leaders.size ∧ g.find m = i

theorem nodes_eq : g.nodes i = (g.classAt i).nodes := by
  rw [nodes, classAt]
  cases g.classes[i]? <;> rfl

theorem find_eq_self (h : g.leaders.size ≤ i) : g.find i = i := by
  rw [find, Array.getElem?_eq_none h]
  rfl

theorem Tidy.empty : Tidy {} where
  size_classes := rfl
  find_lt _ h := absurd h (Nat.not_lt_zero _)
  find_find _ := rfl
  mem_members i m := by simp [classAt]

theorem Tidy.canonical_canonical (h : g.Tidy) (c : Cell) :
    g.canonical (g.canonical c) = g.canonical c := by
  rw [canonical, canonical, List.map_map]
  exact congrArg (Cell.mk c.head) (List.map_congr_left fun k _ => h.find_find k)

theorem getElem?_foldl_setIfInBounds (ms : List Nat) (leaders : Array Nat) (x : Nat) :
    (ms.foldl (fun leaders m => leaders.setIfInBounds m i) leaders)[x]? =
      if x ∈ ms ∧ x < leaders.size then some i else leaders[x]? := by
  induction ms generalizing leaders with
  | nil => simp
  | cons m ms ih =>
    rw [List.foldl_cons, ih, Array.size_setIfInBounds, Array.getElem?_setIfInBounds]
    by_cases hx : x < leaders.size <;> by_cases hm : m = x <;> simp [hx, hm]
    all_goals grind

theorem size_foldl_setIfInBounds (ms : List Nat) (leaders : Array Nat) :
    (ms.foldl (fun leaders m => leaders.setIfInBounds m i) leaders).size = leaders.size := by
  induction ms generalizing leaders with
  | nil => rfl
  | cons m ms ih => rw [List.foldl_cons, ih, Array.size_setIfInBounds]

@[simp] theorem size_leaders_absorb : (g.absorb i j).leaders.size = g.leaders.size :=
  size_foldl_setIfInBounds _ _

@[simp] theorem size_classes_absorb : (g.absorb i j).classes.size = g.classes.size := by
  simp [absorb]

theorem Tidy.find_absorb (h : g.Tidy) (hj : j < g.leaders.size) (m : Nat) :
    (g.absorb i j).find m = if g.find m = j then i else g.find m := by
  have hleaders : (g.absorb i j).leaders[m]? =
      if m ∈ (g.classAt j).members ∧ m < g.leaders.size then some i else g.leaders[m]? :=
    getElem?_foldl_setIfInBounds _ _ _
  rw [find, hleaders, if_congr (and_congr_left' (h.mem_members j m)) rfl rfl]
  by_cases hm : m < g.leaders.size
  · by_cases hfind : g.find m = j
    · rw [if_pos ⟨⟨hm, hfind⟩, hm⟩, if_pos hfind, Option.getD_some]
    · rw [if_neg fun hc => hfind hc.1.2, if_neg hfind]
      rfl
  · have hself := find_eq_self (Nat.le_of_not_lt hm)
    rw [if_neg fun hc => hm hc.2, if_neg fun hc => hm (by rw [← hself, hc]; exact hj)]
    rfl

/-- Joining gathers what two classes have in one of them. -/
theorem classAt_absorb (hij : i ≠ j) (hi : i < g.classes.size) :
    (g.absorb i j).classAt k =
      if k = i then {
        nodes := (g.classAt j).nodes ++ (g.classAt i).nodes
        users := (g.classAt i).users ++ (g.classAt j).users
        members := (g.classAt j).members ++ (g.classAt i).members }
      else if k = j then {} else g.classAt k := by
  rw [classAt, absorb, Array.getElem?_modify, Array.getElem?_setIfInBounds]
  by_cases hk : k = i
  · subst hk
    simp [classAt, Array.getElem?_eq_getElem hi, Ne.symm hij]
  · by_cases hkj : k = j
    · subst hkj
      by_cases hlt : k < g.classes.size <;> simp [Ne.symm hk, hk, hlt]
    · simp [hk, hkj, Ne.symm hk, Ne.symm hkj, classAt]

theorem Tidy.absorb (h : g.Tidy) (hi : i < g.leaders.size) (hj : j < g.leaders.size) (hij : i ≠ j)
    (hfi : g.find i = i) : (g.absorb i j).Tidy where
  size_classes := by rw [size_classes_absorb, size_leaders_absorb, h.size_classes]
  find_lt m hm := by
    rw [size_leaders_absorb] at hm ⊢
    rw [h.find_absorb hj]
    split
    · exact hi
    · exact h.find_lt m hm
  find_find m := by
    rw [h.find_absorb hj m]
    split
    · rw [h.find_absorb hj, hfi, if_neg hij]
    · next hm => rw [h.find_absorb hj, h.find_find, if_neg hm]
  mem_members k m := by
    rw [classAt_absorb hij (h.size_classes ▸ hi), size_leaders_absorb, h.find_absorb hj]
    split
    · next hk =>
      subst hk
      rw [List.mem_append, h.mem_members, h.mem_members]
      grind
    · split
      · next hk =>
        subst hk
        have hnot : (if g.find m = k then i else g.find m) ≠ k := by
          split
          · exact hij
          · assumption
        simp [hnot]
      · next hki hkj =>
        rw [h.mem_members]
        grind

/-! ### Recorded nodes -/

/-- The graph records a node for a class. -/
inductive Records (g : EqualityGraph) (c : Cell) (i : Nat) : Prop where
  /-- The class has the node. -/
  | node (h : c ∈ g.nodes i)
  /-- The node uses a class. -/
  | user (k : Nat) (h : (c, i) ∈ (g.classAt k).users)
  /-- The node has the class in the table. -/
  | known (h : g.classOf[c]? = some i)
  /-- The node is pending. -/
  | pending (h : (c, i) ∈ g.pending)

theorem mem_foldl_cons {β : Type} {x : β} {xs : Array β} {ys : List β}
    (h : x ∈ xs.foldl (fun ys y => y :: ys) ys) : x ∈ xs ∨ x ∈ ys := by
  rw [← Array.foldl_toList] at h
  have hrun : ∀ (xs ys : List β), xs.foldl (fun ys y => y :: ys) ys = xs.reverse ++ ys := by
    intro xs
    induction xs with
    | nil => exact fun _ => rfl
    | cons y xs ih => simp [ih]
  rw [hrun, List.mem_append, List.mem_reverse, Array.mem_toList_iff] at h
  exact h

/-- Joining records the nodes of one class for the other. -/
theorem Records.of_absorb (hij : i ≠ j) (hi : i < g.classes.size)
    (h : (g.absorb i j).Records c k) : g.Records c k ∨ k = i ∧ g.Records c j := by
  cases h with
  | node h =>
    rw [nodes_eq, classAt_absorb hij hi] at h
    split at h
    · next hk =>
      subst hk
      rw [← nodes_eq, ← nodes_eq] at h
      exact (List.mem_append.1 h).elim (fun h => .inr ⟨rfl, .node h⟩) fun h => .inl (.node h)
    · split at h
      · cases h
      · exact .inl (.node (nodes_eq ▸ h))
  | user m h =>
    rw [classAt_absorb hij hi] at h
    split at h
    · next hm =>
      subst hm
      exact (Array.mem_append.1 h).elim (fun h => .inl (.user _ h)) fun h => .inl (.user _ h)
    · split at h
      · simp at h
      · exact .inl (.user _ h)
  | known h => exact .inl (.known h)
  | pending h =>
    exact (mem_foldl_cons h).elim (fun h => .inl (.user j h)) fun h => .inl (.pending h)

/-- The second class is the first with more uses, all of them the same. -/
structure Used (u : Cell × Nat) (x y : EqualityClass) : Prop where
  /-- The nodes are kept. -/
  nodes_eq : y.nodes = x.nodes
  /-- The members are kept. -/
  members_eq : y.members = x.members
  /-- The uses. -/
  mem_users : ∀ v ∈ y.users, v ∈ x.users ∨ v = u

theorem Used.refl (u : Cell × Nat) (x : EqualityClass) : Used u x x := ⟨rfl, rfl, fun _ => .inl⟩

theorem Used.push {u : Cell × Nat} {x y : EqualityClass} (h : Used u x y) :
    Used u x { y with users := y.users.push u } :=
  ⟨h.nodes_eq, h.members_eq, fun v hv =>
    (Array.mem_push.1 hv).elim (h.mem_users v) .inr⟩

theorem used_addUses {classes classes' : Array EqualityClass}
    (h : ∀ k : Nat, Used (c, i) (classes[k]?.getD {}) (classes'[k]?.getD {}))
    (hsize : classes'.size = classes.size) :
    (∀ k : Nat, Used (c, i) (classes[k]?.getD {}) ((addUses classes' c i)[k]?.getD {})) ∧
      (addUses classes' c i).size = classes.size := by
  rw [addUses]
  generalize c.operands = operands
  induction operands generalizing classes' with
  | nil => exact ⟨h, hsize⟩
  | cons operand operands ih =>
    rw [List.foldl_cons]
    refine ih (fun k => ?_) (by rw [Array.size_modify, hsize])
    rw [Array.getElem?_modify]
    split
    · have hk := h k
      revert hk
      cases classes'[k]? with
      | none => exact id
      | some x => exact Used.push
    · exact h k

theorem size_leaders_addClass : (g.addClass c).2.leaders.size = g.leaders.size + 1 :=
  Array.size_push ..

theorem find_addClass : (g.addClass c).2.find = g.find := by
  funext m
  rw [find, addClass, Array.getElem?_push]
  split
  · next hm => rw [find_eq_self (Nat.le_of_eq hm.symm), hm]; rfl
  · rfl

/-- A new class has a node; the other classes keep theirs. -/
theorem Tidy.classAt_addClass (h : g.Tidy) :
    if k = g.leaders.size then
      (g.addClass c).2.classAt k = { nodes := [c], members := [g.leaders.size] }
    else Used (c, g.leaders.size) (g.classAt k) ((g.addClass c).2.classAt k) := by
  obtain ⟨hused, hsize⟩ := used_addUses (c := c) (i := g.leaders.size)
    (fun k => Used.refl _ (g.classes[k]?.getD {})) rfl
  rw [← h.size_classes] at hused hsize ⊢
  rw [classAt, addClass, Array.getElem?_push, ← h.size_classes, hsize]
  split
  · rfl
  · exact hused k

theorem Tidy.addClass (h : g.Tidy) : (g.addClass c).2.Tidy where
  size_classes := by
    rw [size_leaders_addClass, ← h.size_classes, EqualityGraph.addClass, Array.size_push]
    exact congrArg (· + 1) (used_addUses (fun k => .refl _ _) rfl).2
  find_lt m hm := by
    rw [size_leaders_addClass] at hm ⊢
    rw [find_addClass]
    rcases Nat.lt_succ_iff_lt_or_eq.1 hm with hm | rfl
    · exact Nat.lt_succ_of_lt (h.find_lt m hm)
    · rw [find_eq_self (Nat.le_refl _)]
      exact hm
  find_find := by
    rw [find_addClass]
    exact h.find_find
  mem_members k m := by
    rw [find_addClass, size_leaders_addClass]
    have hclass := h.classAt_addClass (c := c) (k := k)
    split at hclass
    · next hk =>
      rw [hclass, List.mem_singleton, hk]
      constructor
      · rintro rfl
        exact ⟨Nat.lt_succ_self _, find_eq_self (Nat.le_refl _)⟩
      · rintro ⟨hm, hfind⟩
        by_contra hne
        exact absurd hfind (Nat.ne_of_lt (h.find_lt m (by omega)))
    · next hk =>
      rw [hclass.members_eq, h.mem_members]
      constructor
      · rintro ⟨hm, hfind⟩
        exact ⟨Nat.lt_succ_of_lt hm, hfind⟩
      · rintro ⟨hm, hfind⟩
        refine ⟨?_, hfind⟩
        by_contra hge
        rw [find_eq_self (Nat.le_of_not_lt hge)] at hfind
        omega

/-- A new class records its node; the other classes record what they did. -/
theorem Records.of_addClass (hg : g.Tidy) (h : (g.addClass c).2.Records d k) :
    g.Records d k ∨ d = c ∧ k = g.leaders.size := by
  cases h with
  | node h =>
    rw [nodes_eq] at h
    have hclass := hg.classAt_addClass (c := c) (k := k)
    split at hclass
    · next hk =>
      rw [hclass, List.mem_singleton] at h
      exact .inr ⟨h, hk⟩
    · rw [hclass.nodes_eq, ← nodes_eq] at h
      exact .inl (.node h)
  | user m h =>
    have hclass := hg.classAt_addClass (c := c) (k := m)
    split at hclass
    · rw [hclass] at h
      simp at h
    · exact (hclass.mem_users _ h).elim (fun h => .inl (.user m h)) fun h => .inr (Prod.mk.inj h)
  | known h =>
    rw [EqualityGraph.addClass, Std.HashMap.getElem?_insert] at h
    split at h
    · next hc => exact .inr ⟨(eq_of_beq hc).symm, (Option.some.inj h).symm⟩
    · exact .inl (.known h)
  | pending h =>
    rcases List.mem_cons.1 h with h | h
    · exact .inr (Prod.mk.inj h)
    · exact .inl (.pending h)

/-! ### Rewritten nodes -/

theorem mem_distinct {cs : List Cell} : c ∈ distinct cs ↔ c ∈ cs := by
  have hrun : ∀ (cs : List Cell) (s : Std.HashSet Cell × List Cell),
      (∀ d, s.1.contains d ↔ d ∈ s.2) →
      (c ∈ (cs.foldl (fun (s : Std.HashSet Cell × List Cell) c =>
        if s.1.contains c then s else (s.1.insert c, c :: s.2)) s).2 ↔ c ∈ cs ∨ c ∈ s.2) := by
    intro cs
    induction cs with
    | nil => simp
    | cons d cs ih =>
      intro s hs
      rw [List.foldl_cons]
      split
      · next hd =>
        rw [ih s hs, List.mem_cons]
        have := (hs d).1 hd
        grind
      · rw [ih]
        · grind
        · intro e
          rw [Std.HashSet.contains_insert, Bool.or_eq_true, beq_iff_eq, List.mem_cons, hs e,
            @eq_comm _ d e]
  unfold distinct
  split
  · rfl
  · rfl
  · rw [List.mem_reverse, hrun _ _ (by simp)]
    simp

/-- The nodes are written over the classes that their operands are joined to. -/
theorem classAt_refresh : g.refresh.classAt i =
    { g.classAt i with nodes := distinct ((g.classAt i).nodes.map g.canonical) } := by
  rw [classAt, refresh, Array.getElem?_map, classAt]
  cases g.classes[i]? <;> rfl

theorem mem_nodes_refresh : c ∈ g.refresh.nodes i ↔ ∃ d ∈ g.nodes i, g.canonical d = c := by
  rw [nodes_eq, classAt_refresh, mem_distinct, List.mem_map, nodes_eq]

theorem Tidy.refresh (h : g.Tidy) : g.refresh.Tidy where
  size_classes := (Array.size_map ..).trans h.size_classes
  find_lt := h.find_lt
  find_find := h.find_find
  mem_members i m := by
    rw [classAt_refresh]
    exact h.mem_members i m

theorem Records.of_refresh (h : g.refresh.Records c k) :
    ∃ d, g.Records d k ∧ (c = d ∨ c = g.canonical d) := by
  cases h with
  | node h =>
    obtain ⟨d, hd, rfl⟩ := mem_nodes_refresh.1 h
    exact ⟨d, .node hd, .inr rfl⟩
  | user m h =>
    rw [classAt_refresh] at h
    exact ⟨c, .user m h, .inl rfl⟩
  | known h => exact ⟨c, .known h, .inl rfl⟩
  | pending h => exact ⟨c, .pending h, .inl rfl⟩

/-! ### Sound graphs -/

/-- The node is over classes that there are, and has the value of its class. -/
structure HasValue (f : Head → List α → α) (val : Nat → α) (n : Nat) (c : Cell) (i : Nat) :
    Prop where
  /-- The class. -/
  class_lt : i < n
  /-- The operands. -/
  operand_lt : ∀ k ∈ c.operands, k < n
  /-- The value. -/
  value_eq : f c.head (c.operands.map val) = val i

/-- Joined classes have equal values, and recorded nodes have those of their classes. -/
structure Sound (f : Head → List α → α) (val : Nat → α) (g : EqualityGraph) : Prop where
  /-- The classes are joined to others properly. -/
  tidy : g.Tidy
  /-- Joined classes have equal values. -/
  val_find : ∀ i, val (g.find i) = val i
  /-- Recorded nodes have the values of their classes. -/
  hasValue : ∀ {c i}, g.Records c i → HasValue f val g.leaders.size c i

/-- The class that a class has been joined to has a node, up to joined classes. -/
def Keeps (g : EqualityGraph) (i : Nat) (c : Cell) : Prop :=
  ∃ d ∈ g.nodes (g.find i), g.canonical d = g.canonical c

/-- A sound graph that has been made of another one: there may be more classes, but those that there
were have the same values and keep their nodes. -/
structure Grows (f : Head → List α → α) (val : Nat → α) (g : EqualityGraph) (val' : Nat → α)
    (g' : EqualityGraph) : Prop where
  /-- The graph is sound. -/
  sound : Sound f val' g'
  /-- No class is lost. -/
  size_le : g.leaders.size ≤ g'.leaders.size
  /-- The values are kept. -/
  val_eq : ∀ i < g.leaders.size, val' i = val i
  /-- The nodes are kept. -/
  keeps : ∀ {i c}, g.Keeps i c → g'.Keeps i c

theorem Sound.grows (h : Sound f val g) : Grows f val g val g :=
  ⟨h, Nat.le_refl _, fun _ _ => rfl, id⟩

theorem Grows.trans {val'' : Nat → α} {g'' : EqualityGraph} (h : Grows f val g val' g')
    (h' : Grows f val' g' val'' g'') : Grows f val g val'' g'' where
  sound := h'.sound
  size_le := Nat.le_trans h.size_le h'.size_le
  val_eq i hi := (h'.val_eq i (Nat.lt_of_lt_of_le hi h.size_le)).trans (h.val_eq i hi)
  keeps hc := h'.keeps (h.keeps hc)

theorem Sound.empty : Sound f val {} where
  tidy := .empty
  val_find _ := rfl
  hasValue h := by
    cases h with
    | node h => simp [nodes] at h
    | user k h => simp [classAt] at h
    | known h => simp at h
    | pending h => simp at h

theorem HasValue.mono {val' : Nat → α} (h : HasValue f val n c i) (hn : n ≤ m)
    (hval : ∀ i < n, val' i = val i) : HasValue f val' m c i where
  class_lt := Nat.lt_of_lt_of_le h.class_lt hn
  operand_lt k hk := Nat.lt_of_lt_of_le (h.operand_lt k hk) hn
  value_eq := by
    rw [hval i h.class_lt, ← h.value_eq]
    exact congrArg _ (List.map_congr_left fun k hk => hval k (h.operand_lt k hk))

theorem Sound.map_canonical (h : Sound f val g) (c : Cell) :
    (g.canonical c).operands.map val = c.operands.map val := by
  rw [canonical, List.map_map]
  exact List.map_congr_left fun k _ => h.val_find k

theorem Sound.hasValue_canonical (h : Sound f val g) (hc : HasValue f val g.leaders.size c i) :
    HasValue f val g.leaders.size (g.canonical c) i where
  class_lt := hc.class_lt
  operand_lt k hk := by
    obtain ⟨m, hm, rfl⟩ := List.mem_map.1 hk
    exact h.tidy.find_lt m (hc.operand_lt m hm)
  value_eq := by rw [h.map_canonical, ← hc.value_eq]; rfl

/-- What changes neither the classes nor what they are joined to keeps all values. -/
theorem Sound.grows_of_classes_eq (h : Sound f val g) (hleaders : g'.leaders = g.leaders)
    (hclasses : g'.classes = g.classes)
    (hrecords : ∀ {c i}, g'.Records c i → HasValue f val g.leaders.size c i) :
    Grows f val g val g' := by
  have hfind : g'.find = g.find := by
    funext i
    rw [find, hleaders, find]
  have hclass : g'.classAt = g.classAt := by
    funext i
    rw [classAt, hclasses, classAt]
  refine ⟨⟨⟨?_, ?_, ?_, ?_⟩, ?_, ?_⟩, ?_, fun _ _ => rfl, ?_⟩
  · rw [hclasses, hleaders, h.tidy.size_classes]
  · rw [hleaders, hfind]
    exact h.tidy.find_lt
  · rw [hfind]
    exact h.tidy.find_find
  · rw [hleaders, hfind, hclass]
    exact h.tidy.mem_members
  · rw [hfind]
    exact h.val_find
  · rw [hleaders]
    exact hrecords
  · exact Nat.le_of_eq (congrArg Array.size hleaders).symm
  · rintro i c ⟨d, hd, hdc⟩
    refine ⟨d, ?_, ?_⟩
    · rwa [nodes_eq, hclass, hfind, ← nodes_eq]
    · rwa [canonical, canonical, hfind]

theorem Sound.addClass (h : Sound f val g) (hc : ∀ k ∈ c.operands, k < g.leaders.size) :
    ∃ val', Grows f val g val' (g.addClass c).2 ∧
      val' g.leaders.size = f c.head (c.operands.map val) := by
  let n := g.leaders.size
  let val' : Nat → α := fun i => if i = n then f c.head (c.operands.map val) else val i
  have hold : ∀ i < n, val' i = val i := fun i hi => if_neg (Nat.ne_of_lt hi)
  have hnew : val' n = f c.head (c.operands.map val) := if_pos rfl
  refine ⟨val', ⟨⟨h.tidy.addClass, fun i => ?_, fun {d k} hd => ?_⟩, ?_, hold, ?_⟩, hnew⟩
  · rw [find_addClass]
    rcases Nat.lt_or_ge i n with hi | hi
    · rw [hold _ (h.tidy.find_lt i hi), hold i hi, h.val_find]
    · rw [find_eq_self hi]
  · rw [size_leaders_addClass]
    rcases hd.of_addClass h.tidy with hd | ⟨rfl, rfl⟩
    · exact (h.hasValue hd).mono (Nat.le_succ n) hold
    · refine ⟨Nat.lt_succ_self n, fun k hk => Nat.lt_succ_of_lt (hc k hk), ?_⟩
      rw [hnew]
      exact congrArg _ (List.map_congr_left fun k hk => hold k (hc k hk))
  · rw [size_leaders_addClass]
    exact Nat.le_succ _
  · rintro i e ⟨d, hd, hde⟩
    refine ⟨d, ?_, by rwa [canonical, canonical, find_addClass]⟩
    have hclass := h.tidy.classAt_addClass (c := c) (k := g.find i)
    rw [find_addClass]
    split at hclass
    · next hi =>
      have hd' := (h.hasValue (.node hd)).class_lt
      omega
    · rwa [nodes_eq, hclass.nodes_eq, ← nodes_eq]

/-- A node has a class with its value. -/
theorem Sound.add (h : Sound f val g) (hc : ∀ k ∈ c.operands, k < g.leaders.size) :
    ∃ val', Grows f val g val' (g.add c).2 ∧ (g.add c).1 < (g.add c).2.leaders.size ∧
      val' (g.add c).1 = f c.head (c.operands.map val) := by
  unfold EqualityGraph.add
  dsimp only
  split
  · next i hi =>
    have hvalue := h.hasValue (.known hi)
    refine ⟨val, h.grows, h.tidy.find_lt i hvalue.class_lt, ?_⟩
    rw [h.val_find, ← hvalue.value_eq, h.map_canonical]
    rfl
  · obtain ⟨val', hgrows, hval⟩ := h.addClass (c := g.canonical c) fun k hk => by
      obtain ⟨m, hm, rfl⟩ := List.mem_map.1 hk
      exact h.tidy.find_lt m (hc m hm)
    refine ⟨val', hgrows, ?_, ?_⟩
    · rw [size_leaders_addClass]
      exact Nat.lt_succ_self _
    · rw [h.map_canonical] at hval
      exact hval

/-- Classes with equal values may be joined. -/
theorem Sound.absorb (h : Sound f val g) (hi : i < g.leaders.size) (hj : j < g.leaders.size)
    (hij : i ≠ j) (hfi : g.find i = i) (hval : val i = val j) :
    Grows f val g val (g.absorb i j) := by
  have hfind := h.tidy.find_absorb (i := i) hj
  have hi' : i < g.classes.size := h.tidy.size_classes ▸ hi
  refine ⟨⟨h.tidy.absorb hi hj hij hfi, fun m => ?_, fun {c k} hc => ?_⟩, ?_, fun _ _ => rfl, ?_⟩
  · rw [hfind]
    split
    · next hm => rw [hval, ← hm, h.val_find]
    · exact h.val_find m
  · rw [size_leaders_absorb]
    rcases hc.of_absorb hij hi' with hold | ⟨rfl, hold⟩
    · exact h.hasValue hold
    · have hvalue := h.hasValue hold
      exact ⟨hi, hvalue.operand_lt, hvalue.value_eq.trans hval.symm⟩
  · exact Nat.le_of_eq size_leaders_absorb.symm
  · rintro m c ⟨d, hd, hdc⟩
    -- the joined graph looks classes up as before, and then replaces `j`
    have hcanonical : ∀ c : Cell, (g.absorb i j).canonical c =
        { g.canonical c with
          operands := (g.canonical c).operands.map fun k => if k = j then i else k } := by
      intro c
      rw [canonical, canonical, List.map_map]
      exact congrArg (Cell.mk c.head) (List.map_congr_left fun k _ => hfind k)
    refine ⟨d, ?_, by rw [hcanonical, hcanonical, hdc]⟩
    rw [nodes_eq] at hd
    rw [nodes_eq, classAt_absorb hij hi', hfind]
    by_cases hm : g.find m = j
    · rw [if_pos hm, if_pos rfl]
      exact List.mem_append_left _ (hm ▸ hd)
    · rw [if_neg hm, if_neg hm]
      split
      · next hmi => exact List.mem_append_right _ (hmi ▸ hd)
      · exact hd

theorem Sound.join (h : Sound f val g) (hi : i < g.leaders.size) (hj : j < g.leaders.size)
    (hval : val i = val j) : Grows f val g val (g.join i j).2 := by
  have hi' := h.tidy.find_lt i hi
  have hj' := h.tidy.find_lt j hj
  have hval' : val (g.find i) = val (g.find j) := by rw [h.val_find, h.val_find, hval]
  unfold EqualityGraph.join
  dsimp only
  split
  · exact h.grows
  · next hij =>
    split
    · exact h.absorb hj' hi' (Ne.symm hij) (h.tidy.find_find j) hval'.symm
    · exact h.absorb hi' hj' hij (h.tidy.find_find i) hval'

theorem Sound.settle {u : Cell × Nat} (h : Sound f val g)
    (hu : HasValue f val g.leaders.size u.1 u.2) : Grows f val g val (g.settle u) := by
  have hu' := h.hasValue_canonical hu
  have hgrows : Grows f val g val { g with classOf := g.classOf.insert (g.canonical u.1) u.2 } := by
    refine h.grows_of_classes_eq rfl rfl fun {c i} hc => ?_
    cases hc with
    | node hc => exact h.hasValue (.node hc)
    | user k hc => exact h.hasValue (.user k hc)
    | known hc =>
      rw [Std.HashMap.getElem?_insert] at hc
      split at hc
      · next heq =>
        cases hc
        rwa [← eq_of_beq heq]
      · exact h.hasValue (.known hc)
    | pending hc => exact h.hasValue (.pending hc)
  unfold EqualityGraph.settle
  dsimp only
  split
  · next i hi =>
    have hvalue := h.hasValue (.known hi)
    exact hgrows.trans (hgrows.sound.join hvalue.class_lt hu.class_lt
      (hvalue.value_eq.symm.trans hu'.value_eq))
  · exact hgrows

theorem Sound.settleAll (h : Sound f val g) (fuel : Nat) :
    Grows f val g val (EqualityGraph.settleAll fuel g) := by
  induction fuel generalizing g with
  | zero => exact h.grows
  | succ fuel ih =>
    rw [EqualityGraph.settleAll]
    split
    · exact h.grows
    · next u rest hpending =>
      have hpop : Grows f val g val { g with pending := rest } := by
        refine h.grows_of_classes_eq rfl rfl fun {c i} hc => ?_
        cases hc with
        | node hc => exact h.hasValue (.node hc)
        | user k hc => exact h.hasValue (.user k hc)
        | known hc => exact h.hasValue (.known hc)
        | pending hc => exact h.hasValue (.pending (hpending ▸ List.mem_cons_of_mem u hc))
      have hsettle := hpop.sound.settle (u := u)
        (h.hasValue (.pending (hpending ▸ List.mem_cons_self)))
      exact hpop.trans (hsettle.trans (ih hsettle.sound))

theorem Sound.refresh (h : Sound f val g) : Grows f val g val g.refresh := by
  refine ⟨⟨h.tidy.refresh, h.val_find, fun {c i} hc => ?_⟩, Nat.le_refl _, fun _ _ => rfl, ?_⟩
  · obtain ⟨d, hd, rfl | rfl⟩ := hc.of_refresh
    · exact h.hasValue hd
    · exact h.hasValue_canonical (h.hasValue hd)
  · rintro i c ⟨d, hd, hdc⟩
    refine ⟨g.canonical d, mem_nodes_refresh.2 ⟨d, hd, rfl⟩, ?_⟩
    exact (h.tidy.canonical_canonical d).trans hdc

theorem Sound.rebuild (h : Sound f val g) : Grows f val g val g.rebuild :=
  (h.settleAll _).trans (h.settleAll _).sound.refresh

/-- The nodes of a rebuilt graph are over classes that are joined to no other. -/
theorem Sound.canonical_of_mem_rebuild (h : Sound f val g) (hc : c ∈ g.rebuild.nodes i) :
    g.rebuild.canonical c = c := by
  obtain ⟨d, -, rfl⟩ := mem_nodes_refresh.1 hc
  exact (h.settleAll _).sound.tidy.canonical_canonical d

theorem Sound.reindex (h : Sound f val g) : Grows f val g val g.reindex :=
  h.grows_of_classes_eq rfl rfl fun hc => by
    cases hc with
    | node hc => exact h.hasValue (.node hc)
    | user k hc => exact h.hasValue (.user k hc)
    | known hc => exact h.hasValue (.known hc)
    | pending hc => exact h.hasValue (.pending hc)

end Resolvent.EqualityGraph

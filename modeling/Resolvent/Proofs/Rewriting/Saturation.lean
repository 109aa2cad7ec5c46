import Resolvent.Proofs.Rewriting.Simplifier
import Resolvent.Proofs.Rewriting.Values
import Resolvent.Rewriting.Saturation

/-!
# Saturation keeps values

A match binds the variables of a pattern to classes so that the pattern has the value of the class
it was found in, whatever the variables that are not bound stand for (`EqualityGraph.Instance`).  In
a sound graph all matches that are found are instances (`EqualityGraph.Sound.search?_instance`).  So
where both sides of a rule have equal values, applying it to a match joins classes with equal
values, and saturation by such rules keeps all values, however early it is cut off
(`EqualityGraph.Sound.saturate`).
-/

namespace Resolvent

namespace EqualityGraph

variable {α : Type} {f : Head → List α → α} {val val' : Nat → α} {g g' : EqualityGraph}
  {c : Cell} {head : Head} {i j k n : Nat} {s s' : Binding} {p : Pattern} {m : Match}
  {limits : SaturationLimits}

/-! ### Indexed graphs -/

/-- What the graph lists by head and by first operand is there. -/
structure Filed (g : EqualityGraph) : Prop where
  /-- Listed classes. -/
  class_lt : ∀ {head : Head} {i : Nat}, i ∈ (g.index[head]?.getD []) → i < g.classes.size
  /-- Listed nodes. -/
  mem_nodes : ∀ {i : Nat} {head : Head} {k : Nat} {c : Cell},
    c ∈ (g.byFirst[(i, head, k)]?.getD []) → c ∈ g.nodes i ∧ c.head = head

theorem mem_file {κ β : Type} [BEq κ] [LawfulBEq κ] [Hashable κ] {map : Std.HashMap κ (List β)}
    {key key' : κ} {x y : β} (h : y ∈ ((file map key x)[key']?.getD [])) :
    key = key' ∧ y = x ∨ y ∈ (map[key']?.getD []) := by
  rw [file, Std.HashMap.getElem?_insert] at h
  split at h
  · next hkey =>
    cases eq_of_beq hkey
    rcases List.mem_cons.1 h with h | h
    · exact .inl ⟨rfl, h⟩
    · exact .inr h
  · exact .inr h

/-- What holds at the start of a fold and is kept by its steps holds at its end. -/
theorem foldl_keeps {β γ : Type} {P : γ → Prop} {step : γ → β → γ} {xs : List β} {z : γ} (hz : P z)
    (hstep : ∀ x ∈ xs, ∀ z, P z → P (step z x)) : P (xs.foldl step z) := by
  induction xs generalizing z with
  | nil => exact hz
  | cons x xs ih =>
    exact ih (hstep x List.mem_cons_self z hz) fun y hy => hstep y (List.mem_cons_of_mem x hy)

theorem foldr_keeps {β γ : Type} {P : γ → Prop} {step : β → γ → γ} {xs : List β} {z : γ} (hz : P z)
    (hstep : ∀ x ∈ xs, ∀ z, P z → P (step x z)) : P (xs.foldr step z) := by
  rw [List.foldr_eq_foldl_reverse]
  exact foldl_keeps hz fun x hx => hstep x (List.mem_reverse.1 hx)

theorem filed_reindex : g.reindex.Filed where
  class_lt {head i} h := by
    let P (index : Std.HashMap Head (List Nat)) : Prop :=
      ∀ (head : Head) (i : Nat), i ∈ (index[head]?.getD []) → i < g.classes.size
    refine (?_ : P g.reindex.index) head i h
    refine foldr_keeps (fun head i hi => by simp at hi) fun i hi index hindex => ?_
    refine foldl_keeps hindex fun head _ index hindex head' j hj => ?_
    rcases mem_file hj with ⟨-, rfl⟩ | hj
    · exact List.mem_range.1 hi
    · exact hindex head' j hj
  mem_nodes {i head k c} h := by
    let P (byFirst : Std.HashMap (Nat × Head × Nat) (List Cell)) : Prop :=
      ∀ (i : Nat) (head : Head) (k : Nat) (c : Cell),
        c ∈ (byFirst[(i, head, k)]?.getD []) → c ∈ g.nodes i ∧ c.head = head
    refine (?_ : P g.reindex.byFirst) i head k c h
    refine foldl_keeps (fun i head k c hc => by simp at hc) fun i _ byFirst hbyFirst => ?_
    refine foldr_keeps hbyFirst fun c hc byFirst hbyFirst j head k d hd => ?_
    split at hd
    · exact hbyFirst j head k d hd
    · rcases mem_file hd with ⟨hkey, rfl⟩ | hd
      · cases hkey
        exact ⟨hc, rfl⟩
      · exact hbyFirst j head k d hd

theorem Filed.of_mem_candidates (h : g.Filed) (hc : c ∈ g.candidates head p i s) :
    c ∈ g.nodes i ∧ c.head = head := by
  have hfilter : c ∈ ((g.nodes i).filter fun c => c.head = head) → c ∈ g.nodes i ∧ c.head = head :=
    fun hc => ⟨(List.mem_filter.1 hc).1, of_decide_eq_true (List.mem_filter.1 hc).2⟩
  unfold candidates at hc
  split at hc
  · split at hc
    · exact h.mem_nodes hc
    · exact hfilter hc
  · exact hfilter hc

/-! ### Matches -/

/-- All variables of a binding stand for classes that there are. -/
def Binding.Within (n : Nat) (s : Binding) : Prop := ∀ v j, s.lookup v = some j → j < n

/-- The values of the variables are those of the classes they stand for. -/
def Binding.Agrees (val : Nat → α) (s : Binding) (value : Nat → α) : Prop :=
  ∀ v j, s.lookup v = some j → value v = val j

/-- The pattern has the value of the class, with the variables bound to classes. -/
structure Instance (f : Head → List α → α) (val : Nat → α) (n : Nat) (p : Pattern) (m : Match) :
    Prop where
  /-- The class. -/
  class_lt : m.1 < n
  /-- The binding. -/
  within : m.2.Within n
  /-- The value. -/
  fold_eq : ∀ value, m.2.Agrees val value → p.fold f value = val m.1

theorem Binding.Within.cons (h : s.Within n) (hi : i < n) (v : Nat) : Within n ((v, i) :: s) := by
  intro w j hj
  rw [List.lookup_cons] at hj
  split at hj
  · cases hj
    exact hi
  · exact h w j hj

theorem Binding.Agrees.of_cons {v : Nat} {value : Nat → α} (hv : s.lookup v = none)
    (h : Agrees val ((v, i) :: s) value) : Agrees val s value ∧ value v = val i := by
  refine ⟨fun w j hj => h w j ?_, h v i (by simp)⟩
  rw [List.lookup_cons]
  split
  · next hw =>
    cases eq_of_beq hw
    rw [hv] at hj
    cases hj
  · exact hj

/-- All matches found so far have a property. -/
def Found.All (P : Match → Prop) (found : Found) : Prop := ∀ m ∈ found.items, P m

section Matching

variable {P : Match → Prop} {next : Binding → Found → Found}

mutual

/-- Matching goes on with bindings that extend the one it was given and make the pattern equal to
the class. -/
theorem Sound.matchClass (h : Sound f val g) (hfiled : g.Filed) :
    ∀ (p : Pattern) {i : Nat} {s : Binding} {next : Binding → Found → Found} {found : Found},
      i < g.leaders.size → s.Within g.leaders.size → found.All P →
      (∀ s' found, s'.Within g.leaders.size →
        (∀ value, s'.Agrees val value → s.Agrees val value ∧ p.fold f value = val i) →
        found.All P → (next s' found).All P) →
      (matchClass g p i s next found).All P
  | .hole v, i, s, next, found, hi, hs, hfound, hnext => by
    rw [EqualityGraph.matchClass]
    split
    · next j hj =>
      split
      · next hij =>
        exact hnext s found hs
          (fun value hvalue => ⟨hvalue, (hvalue v j hj).trans (hij ▸ rfl)⟩) hfound
      · exact hfound
    · next hv => exact hnext _ found (hs.cons hi v) (fun value hvalue => hvalue.of_cons hv) hfound
  | .node head [], i, s, next, found, hi, hs, hfound, hnext => by
    rw [EqualityGraph.matchClass]
    split
    · next hlookup =>
      refine hnext s found hs (fun value hvalue => ⟨hvalue, ?_⟩) hfound
      obtain ⟨j, hj, hji⟩ := Option.map_eq_some_iff.1 (eq_of_beq hlookup)
      rw [← hji, h.val_find, ← (h.hasValue (.known hj)).value_eq]
      rfl
    · exact hfound
  | .node head (p :: ps), i, s, next, found, hi, hs, hfound, hnext => by
    rw [EqualityGraph.matchClass]
    refine foldl_keeps hfound fun c hc found hfound => ?_
    split
    · exact hfound
    · obtain ⟨hnode, rfl⟩ := hfiled.of_mem_candidates hc
      have hvalue := h.hasValue (.node hnode)
      refine Sound.matchAll h hfiled (p :: ps) hvalue.operand_lt hs hfound
        fun s' found hs' hfold => ?_
      refine hnext s' found hs' fun value hagrees => ⟨(hfold value hagrees).1, ?_⟩
      rw [Pattern.fold, (hfold value hagrees).2, hvalue.value_eq]

theorem Sound.matchAll (h : Sound f val g) (hfiled : g.Filed) :
    ∀ (ps : List Pattern) {is : List Nat} {s : Binding} {next : Binding → Found → Found}
      {found : Found},
      (∀ i ∈ is, i < g.leaders.size) → s.Within g.leaders.size → found.All P →
      (∀ s' found, s'.Within g.leaders.size →
        (∀ value, s'.Agrees val value →
          s.Agrees val value ∧ Pattern.foldAll f value ps = is.map val) →
        found.All P → (next s' found).All P) →
      (matchAll g ps is s next found).All P
  | [], [], s, next, found, _, hs, hfound, hnext => by
    rw [EqualityGraph.matchAll]
    exact hnext s found hs (fun value hvalue => ⟨hvalue, rfl⟩) hfound
  | p :: ps, i :: is, s, next, found, his, hs, hfound, hnext => by
    rw [EqualityGraph.matchAll]
    refine Sound.matchClass h hfiled p (his i List.mem_cons_self) hs hfound
      fun s₁ found hs₁ hfirst hfound => ?_
    refine Sound.matchAll h hfiled ps (fun i hi => his i (List.mem_cons_of_mem _ hi)) hs₁ hfound
      fun s₂ found hs₂ hrest hfound => ?_
    refine hnext s₂ found hs₂ (fun value hvalue => ?_) hfound
    obtain ⟨hvalue, hps⟩ := hrest value hvalue
    obtain ⟨hvalue, hp⟩ := hfirst value hvalue
    exact ⟨hvalue, by rw [Pattern.foldAll, hp, hps, List.map_cons]⟩
  | [], _ :: _, s, next, found, _, _, hfound, _ => by
    simpa only [EqualityGraph.matchAll] using hfound
  | _ :: _, [], s, next, found, _, _, hfound, _ => by
    simpa only [EqualityGraph.matchAll] using hfound

end

end Matching

/-- Every match that is found is an instance of the pattern. -/
theorem Sound.search?_instance (h : Sound f val g) (hfiled : g.Filed) {limit : Nat}
    {ms : List Match} (hms : g.search? limit p = some ms) :
    ∀ m ∈ ms, Instance f val g.leaders.size p m := by
  cases p with
  | hole v =>
    cases hms
    exact fun m hm => absurd hm List.not_mem_nil
  | node head args =>
    simp only [search?, Option.ite_none_left_eq_some, Option.some.injEq] at hms
    rw [← hms.2]
    intro m hm
    refine (?_ : Found.All (Instance f val g.leaders.size (.node head args)) _) m
      (List.mem_reverse.1 hm)
    refine foldl_keeps (fun m hm => absurd hm List.not_mem_nil) fun i hi found hfound => ?_
    have hlt : i < g.leaders.size := h.tidy.size_classes ▸ hfiled.class_lt hi
    refine h.matchClass hfiled _ hlt (fun v j hj => by simp at hj) hfound
      fun s found hs hfold hfound m hm => ?_
    rcases List.mem_cons.1 hm with rfl | hm
    · exact ⟨hlt, hs, fun value hvalue => (hfold value hvalue).2⟩
    · exact hfound m hm

/-! ### Applying rules -/

/-- The values of the variables of a binding, where one that is not bound stands for class 0. -/
def Binding.value (val : Nat → α) (s : Binding) (v : Nat) : α := val ((s.lookup v).getD 0)

theorem Binding.agrees_value (val : Nat → α) (s : Binding) : s.Agrees val (s.value val) := by
  intro v j hj
  rw [value, hj, Option.getD_some]

theorem Binding.Within.getD_lt (h : s.Within n) (hn : 0 < n) (v : Nat) :
    (s.lookup v).getD 0 < n := by
  cases hv : s.lookup v with
  | none => exact hn
  | some j => exact h v j hv

theorem Binding.Within.value_eq (h : s.Within n) (hn : 0 < n) (hval : ∀ i < n, val' i = val i) :
    s.value val' = s.value val :=
  funext fun v => hval _ (h.getD_lt hn v)

theorem Binding.Within.mono {n' : Nat} (h : s.Within n) (hn : n ≤ n') : s.Within n' :=
  fun v j hj => Nat.lt_of_lt_of_le (h v j hj) hn

theorem Instance.mono (h : Instance f val g.leaders.size p m) (hg : Grows f val g val' g') :
    Instance f val' g'.leaders.size p m where
  class_lt := Nat.lt_of_lt_of_le h.class_lt hg.size_le
  within := h.within.mono hg.size_le
  fold_eq value hvalue := by
    rw [hg.val_eq _ h.class_lt]
    exact h.fold_eq value fun v j hj => (hvalue v j hj).trans (hg.val_eq j (h.within v j hj))

mutual

/-- The class of the instance of a pattern has its value. -/
theorem Sound.instantiate :
    ∀ (p : Pattern) {val : Nat → α} {g : EqualityGraph}, Sound f val g →
      s.Within g.leaders.size → 0 < g.leaders.size →
      ∃ val', Grows f val g val' (EqualityGraph.instantiate s p g).2 ∧
        (EqualityGraph.instantiate s p g).1 < (EqualityGraph.instantiate s p g).2.leaders.size ∧
        val' (EqualityGraph.instantiate s p g).1 = p.fold f (s.value val)
  | .hole v, val, g, h, hs, hpos => by
    rw [EqualityGraph.instantiate, Pattern.fold]
    exact ⟨val, h.grows, hs.getD_lt hpos v, rfl⟩
  | .node head args, val, g, h, hs, hpos => by
    obtain ⟨val₁, hgrows₁, hlt, hvalues⟩ := Sound.instantiateAll args h hs hpos
    obtain ⟨val₂, hgrows₂, hlt₂, hvalue⟩ := hgrows₁.sound.add
      (c := ⟨head, (EqualityGraph.instantiateAll s args g).1⟩) hlt
    rw [EqualityGraph.instantiate, Pattern.fold]
    exact ⟨val₂, hgrows₁.trans hgrows₂, hlt₂, hvalue.trans (congrArg (f head) hvalues)⟩

theorem Sound.instantiateAll :
    ∀ (ps : List Pattern) {val : Nat → α} {g : EqualityGraph}, Sound f val g →
      s.Within g.leaders.size → 0 < g.leaders.size →
      ∃ val', Grows f val g val' (EqualityGraph.instantiateAll s ps g).2 ∧
        (∀ i ∈ (EqualityGraph.instantiateAll s ps g).1,
          i < (EqualityGraph.instantiateAll s ps g).2.leaders.size) ∧
        (EqualityGraph.instantiateAll s ps g).1.map val' = Pattern.foldAll f (s.value val) ps
  | [], val, g, h, _, _ => by
    rw [EqualityGraph.instantiateAll, Pattern.foldAll]
    exact ⟨val, h.grows, fun i hi => absurd hi List.not_mem_nil, rfl⟩
  | p :: ps, val, g, h, hs, hpos => by
    obtain ⟨val₁, hgrows₁, hlt₁, hvalue⟩ := Sound.instantiate p h hs hpos
    obtain ⟨val₂, hgrows₂, hlt₂, hvalues⟩ := Sound.instantiateAll ps hgrows₁.sound
      (hs.mono hgrows₁.size_le) (Nat.lt_of_lt_of_le hpos hgrows₁.size_le)
    rw [hs.value_eq hpos hgrows₁.val_eq] at hvalues
    rw [EqualityGraph.instantiateAll, Pattern.foldAll]
    refine ⟨val₂, hgrows₁.trans hgrows₂, fun i hi => ?_, ?_⟩
    · rcases List.mem_cons.1 hi with rfl | hi
      · exact Nat.lt_of_lt_of_le hlt₁ hgrows₂.size_le
      · exact hlt₂ i hi
    · rw [List.map_cons, hgrows₂.val_eq _ hlt₁, hvalue, hvalues]

end

/-- Applying a rule to an instance of its left-hand side joins classes with equal values. -/
theorem Sound.applyMatch {r : Rule} (h : Sound f val g) (hr : r.Holds f)
    (hm : Instance f val g.leaders.size r.lhs m) (changed : Bool) :
    ∃ val', Grows f val g val' (EqualityGraph.applyMatch r.rhs (changed, g) m).2 := by
  obtain ⟨val', hgrows, hlt, hvalue⟩ :=
    Sound.instantiate r.rhs h hm.within (Nat.lt_of_le_of_lt (Nat.zero_le _) hm.class_lt)
  refine ⟨val', hgrows.trans (hgrows.sound.join hlt
    (Nat.lt_of_lt_of_le hm.class_lt hgrows.size_le) ?_)⟩
  rw [hvalue, ← hr, hm.fold_eq _ (m.2.agrees_value val), hgrows.val_eq _ hm.class_lt]

theorem Sound.applyRule {r : Rule} {ms : List Match} (h : Sound f val g) (hr : r.Holds f)
    (hms : ∀ m ∈ ms, Instance f val g.leaders.size r.lhs m) :
    ∃ val', Grows f val g val' (EqualityGraph.applyRule r.rhs ms g).2 := by
  rw [EqualityGraph.applyRule]
  generalize false = changed
  induction ms generalizing val g changed with
  | nil => exact ⟨val, h.grows⟩
  | cons m ms ih =>
    obtain ⟨val₁, hfirst⟩ := h.applyMatch hr (hms m List.mem_cons_self) changed
    obtain ⟨val₂, hrest⟩ := ih hfirst.sound
      (fun m hm => (hms m (List.mem_cons_of_mem _ hm)).mono hfirst)
      (EqualityGraph.applyMatch r.rhs (changed, g) m).1
    exact ⟨val₂, hfirst.trans hrest⟩

theorem Sound.applyRules {found : List (List Match × Turn)} (h : Sound f val g)
    (hr : ∀ x ∈ found, x.2.rule.Holds f)
    (hms : ∀ x ∈ found, ∀ m ∈ x.1, Instance f val g.leaders.size x.2.rule.lhs m) (changed : Bool) :
    ∃ val', Grows f val g val' (EqualityGraph.applyRules limits found changed g).2 := by
  induction found generalizing val g changed with
  | nil => exact ⟨val, h.grows⟩
  | cons x found ih =>
    obtain ⟨ms, t⟩ := x
    obtain ⟨val₁, hfirst⟩ := h.applyRule (hr _ List.mem_cons_self) (hms _ List.mem_cons_self)
    rw [EqualityGraph.applyRules]
    dsimp only
    split
    · exact ⟨val₁, hfirst⟩
    · obtain ⟨val₂, hrest⟩ := ih hfirst.sound (fun x hx => hr x (List.mem_cons_of_mem _ hx))
        (fun x hx m hm => (hms x (List.mem_cons_of_mem _ hx) m hm).mono hfirst) _
      exact ⟨val₂, hfirst.trans hrest⟩

/-! ### Rounds -/

theorem Turn.rule_search (g : EqualityGraph) (round : Nat) (t : Turn) :
    (t.search g round).2.rule = t.rule := by
  unfold search
  split
  · rfl
  · split <;> rfl

theorem Sound.search_instance (h : Sound f val g) (hfiled : g.Filed) (round : Nat) (t : Turn) :
    ∀ m ∈ (t.search g round).1, Instance f val g.leaders.size t.rule.lhs m := by
  unfold Turn.search
  split
  · exact fun m hm => absurd hm List.not_mem_nil
  · split
    · next ms hms => exact h.search?_instance hfiled hms
    · exact fun m hm => absurd hm List.not_mem_nil

theorem mem_shortenRests {round first : Nat} {turns : List Turn} {t : Turn}
    (ht : t ∈ shortenRests round first turns) : ∃ u ∈ turns, u.rule = t.rule := by
  obtain ⟨u, hu, rfl⟩ := List.mem_map.1 ht
  refine ⟨u, hu, ?_⟩
  split <;> rfl

/-- Graphs that have just been rebuilt. -/
def Rebuilt (g : EqualityGraph) : Prop := ∀ i, ∀ c ∈ g.nodes i, g.canonical c = c

/-- Rounds of rules whose sides have equal values keep all values. -/
theorem Sound.saturateLoop (fuel round : Nat) {turns : List Turn} (h : Sound f val g)
    (hg : g.Rebuilt) (hturns : ∀ t ∈ turns, t.rule.Holds f) :
    ∃ val', Grows f val g val' (EqualityGraph.saturateLoop limits fuel round turns g) ∧
      (EqualityGraph.saturateLoop limits fuel round turns g).Rebuilt := by
  induction fuel generalizing round turns val g with
  | zero => exact ⟨val, h.grows, hg⟩
  | succ fuel ih =>
    rw [EqualityGraph.saturateLoop]
    split
    · exact ⟨val, h.grows, hg⟩
    · have hindexed := h.reindex
      have hrules : ∀ x ∈ turns.map (Turn.search g.reindex round), x.2.rule.Holds f := by
        intro x hx
        obtain ⟨t, ht, rfl⟩ := List.mem_map.1 hx
        rw [Turn.rule_search]
        exact hturns t ht
      obtain ⟨val₁, happlied⟩ := hindexed.sound.applyRules hrules (by
        intro x hx
        obtain ⟨t, ht, rfl⟩ := List.mem_map.1 hx
        rw [Turn.rule_search]
        exact hindexed.sound.search_instance filed_reindex round t) false
      have hrebuilt := hindexed.trans (happlied.trans happlied.sound.rebuild)
      have hturns' : ∀ t ∈ (turns.map (Turn.search g.reindex round)).map Prod.snd,
          t.rule.Holds f := by
        intro t ht
        obtain ⟨x, hx, rfl⟩ := List.mem_map.1 ht
        exact hrules x hx
      dsimp only
      generalize EqualityGraph.applyRules limits (turns.map (Turn.search g.reindex round))
        false g.reindex = result at happlied hrebuilt ⊢
      have hcanonical : result.2.rebuild.Rebuilt :=
        fun _ _ hc => happlied.sound.canonical_of_mem_rebuild hc
      have hgo : ∀ turns : List Turn, (∀ t ∈ turns, t.rule.Holds f) →
          ∃ val', Grows f val g val'
              (EqualityGraph.saturateLoop limits fuel (round + 1) turns result.2.rebuild) ∧
            Rebuilt (EqualityGraph.saturateLoop limits fuel (round + 1) turns
              result.2.rebuild) := by
        intro turns hturns
        obtain ⟨val₂, hrest, hend⟩ := ih (round + 1) hrebuilt.sound hcanonical hturns
        exact ⟨val₂, hrebuilt.trans hrest, hend⟩
      split
      · exact ⟨val₁, hrebuilt, hcanonical⟩
      · split
        · exact hgo _ hturns'
        · split
          · exact ⟨val₁, hrebuilt, hcanonical⟩
          · refine hgo _ fun t ht => ?_
            obtain ⟨u, hu, hut⟩ := mem_shortenRests ht
            exact hut ▸ hturns' u hu

/-- Saturation by rules whose sides have equal values keeps all values, within all limits. -/
theorem Sound.saturate (limits : SaturationLimits) {rules : List Rule} (h : Sound f val g)
    (hrules : ∀ r ∈ rules, r.Holds f) :
    ∃ val', Grows f val g val' (g.saturate limits rules) ∧ (g.saturate limits rules).Rebuilt := by
  have hturns : ∀ t ∈ rules.map fun rule => ({ rule } : Turn), t.rule.Holds f := by
    intro t ht
    obtain ⟨r, hr, rfl⟩ := List.mem_map.1 ht
    exact hrules r hr
  obtain ⟨val', hgrows, hrebuilt⟩ := h.rebuild.sound.saturateLoop limits.iterations 0
    (fun _ _ hc => h.canonical_of_mem_rebuild hc) hturns
  exact ⟨val', h.rebuild.trans hgrows, hrebuilt⟩

end EqualityGraph

end Resolvent

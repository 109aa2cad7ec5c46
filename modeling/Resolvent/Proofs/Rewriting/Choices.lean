import Mathlib.Algebra.Order.BigOperators.Group.List
import Mathlib.Algebra.Order.Group.Nat
import Mathlib.Data.Finset.Card
import Mathlib.Data.Prod.Lex
import Resolvent.Proofs.Rewriting.Saturation
import Resolvent.Rewriting.Saturation

/-!
# Choices of nodes

Choices of nodes for classes are improved in rounds.  A choice is only left for a cheaper one, so
the recorded cost of a choice is never less than what its node costs with the present choices, and
no class is below itself (`EqualityGraph.Supported`).  The latter needs care where costs are the
largest there is, since a sum may then be no greater than its parts: a class with such a cost has
made its choice after the classes of its operands have made theirs.

A round makes the choice of a class at most as costly as each of its nodes was before the round
(`EqualityGraph.chosen_round`).  So what every round takes one step further has gone as many steps
after all rounds, also where they stop early because nothing changes
(`EqualityGraph.improve_induction`).
-/

namespace Resolvent

/-! ### Costs -/

theorem addCost_mono {a b a' b' : Nat} (ha : a ≤ a') (hb : b ≤ b') :
    addCost a b ≤ addCost a' b' := by
  unfold addCost
  omega

theorem addCost_le (a b : Nat) : addCost a b ≤ maxCost := Nat.min_le_right ..

theorem le_addCost_left {a : Nat} (ha : a ≤ maxCost) (b : Nat) : a ≤ addCost a b := by
  unfold addCost
  omega

theorem le_addCost_right {b : Nat} (hb : b ≤ maxCost) (a : Nat) : b ≤ addCost a b := by
  unfold addCost
  omega

theorem foldl_addCost_mono {xs ys : List Nat} (h : List.Forall₂ (· ≤ ·) xs ys) {a b : Nat}
    (hab : a ≤ b) : xs.foldl addCost a ≤ ys.foldl addCost b := by
  induction h generalizing a b with
  | nil => exact hab
  | cons hxy _ ih => exact ih (addCost_mono hab hxy)

theorem foldl_addCost_le {xs : List Nat} {a : Nat} (ha : a ≤ maxCost) :
    xs.foldl addCost a ≤ maxCost := by
  induction xs generalizing a with
  | nil => exact ha
  | cons x xs ih => exact ih (addCost_le a x)

theorem le_foldl_addCost {xs : List Nat} {a : Nat} (ha : a ≤ maxCost) : a ≤ xs.foldl addCost a := by
  induction xs generalizing a with
  | nil => exact Nat.le_refl a
  | cons x xs ih => exact Nat.le_trans (le_addCost_left ha x) (ih (addCost_le a x))

theorem le_foldl_addCost_of_mem {x : Nat} {xs : List Nat} {a : Nat} (hx : x ∈ xs)
    (hle : x ≤ maxCost) : x ≤ xs.foldl addCost a := by
  induction xs generalizing a with
  | nil => cases hx
  | cons y ys ih =>
    rcases List.mem_cons.1 hx with rfl | hx
    · exact Nat.le_trans (le_addCost_right hle a) (le_foldl_addCost (addCost_le a x))
    · exact ih hx

theorem Head.cost_le (h : Head) : h.cost ≤ maxCost := by
  unfold Head.cost maxCost
  split
  · split <;> omega
  · omega

namespace EqualityGraph

variable {g : EqualityGraph} {ch ch' : Array (Option Choice)} {c : Cell} {i j k n : Nat}
  {x y : Choice}

/-- The choice of a class, if it has one. -/
def chosen (ch : Array (Option Choice)) (i : Nat) : Option Choice := ch[i]?.join

/-- There is a choice that costs no more than a number. -/
def CostAtMost (o : Option Choice) (n : Nat) : Prop := ∃ x, o = some x ∧ x.cost ≤ n

theorem chosen_setIfInBounds (hi : i < ch.size) :
    chosen (ch.setIfInBounds i (some x)) k = if k = i then some x else chosen ch k := by
  rw [chosen, Array.getElem?_setIfInBounds]
  by_cases hk : k = i
  · subst hk
    rw [if_pos rfl, if_pos hi, if_pos rfl]
    rfl
  · rw [if_neg (Ne.symm hk), if_neg hk]
    rfl

/-- Costs are added if all classes have choices. -/
theorem addCosts?_eq_some_iff {is : List Nat} {a : Nat} : addCosts? ch is a = some n ↔
    ∃ xs : List Choice, is.map (chosen ch) = xs.map some ∧
      n = (xs.map Choice.cost).foldl addCost a := by
  induction is generalizing a with
  | nil =>
    rw [addCosts?]
    constructor
    · rintro ⟨⟩
      exact ⟨[], rfl, rfl⟩
    · rintro ⟨xs, hxs, rfl⟩
      cases List.map_eq_nil_iff.1 hxs.symm
      rfl
  | cons i is ih =>
    rw [addCosts?]
    split
    · next x hx =>
      have hchosen : chosen ch i = some x := congrArg Option.join hx
      rw [ih]
      constructor
      · rintro ⟨xs, hxs, rfl⟩
        exact ⟨x :: xs, by rw [List.map_cons, List.map_cons, hchosen, hxs], rfl⟩
      · rintro ⟨xs, hxs, rfl⟩
        cases xs with
        | nil => cases hxs
        | cons y ys =>
          rw [List.map_cons, List.map_cons, hchosen] at hxs
          obtain ⟨hy, hys⟩ := List.cons.inj hxs
          cases hy
          exact ⟨ys, hys, rfl⟩
    · next hnone =>
      refine ⟨fun h => (by cases h), ?_⟩
      rintro ⟨xs, hxs, -⟩
      cases xs with
      | nil => cases hxs
      | cons x xs =>
        have hchosen : chosen ch i = some x := (List.cons.inj hxs).1
        exact absurd (Option.join_eq_some_iff.1 hchosen) (hnone x)

/-- A node costs no more than bounds of its operands add up to. -/
theorem nodeCost?_le {r v : Nat → Nat} {operands : List Nat} (head : Head)
    (h : ∀ k ∈ operands, CostAtMost (chosen ch (r k)) (v k)) :
    ∃ n, nodeCost? ch ⟨head, operands.map r⟩ = some n ∧
      n ≤ (operands.map v).foldl addCost head.cost := by
  have hchoices : ∃ xs : List Choice, operands.map (fun k => chosen ch (r k)) = xs.map some ∧
      List.Forall₂ (· ≤ ·) (xs.map Choice.cost) (operands.map v) := by
    induction operands with
    | nil => exact ⟨[], rfl, .nil⟩
    | cons k operands ih =>
      obtain ⟨x, hx, hle⟩ := h k List.mem_cons_self
      obtain ⟨xs, hxs, hall⟩ := ih fun k hk => h k (List.mem_cons_of_mem _ hk)
      exact ⟨x :: xs, by rw [List.map_cons, List.map_cons, hx, hxs], .cons hle hall⟩
  obtain ⟨xs, hxs, hall⟩ := hchoices
  refine ⟨_, addCosts?_eq_some_iff.2 ⟨xs, ?_, rfl⟩, foldl_addCost_mono hall (Nat.le_refl _)⟩
  rw [List.map_map]
  exact hxs

/-- A node costs no less than what its operands cost at least adds up to. -/
theorem le_nodeCost? {v : Nat → Nat} (hn : nodeCost? ch c = some n)
    (h : ∀ k ∈ c.operands, ∀ x, chosen ch k = some x → v k ≤ x.cost) :
    (c.operands.map v).foldl addCost c.head.cost ≤ n := by
  obtain ⟨xs, hxs, rfl⟩ := addCosts?_eq_some_iff.1 hn
  refine foldl_addCost_mono ?_ (Nat.le_refl _)
  have hall : ∀ {operands : List Nat} {xs : List Choice},
      operands.map (chosen ch) = xs.map some →
      (∀ k ∈ operands, ∀ x, chosen ch k = some x → v k ≤ x.cost) →
      List.Forall₂ (· ≤ ·) (operands.map v) (xs.map Choice.cost) := by
    intro operands
    induction operands with
    | nil =>
      intro xs hxs _
      cases List.map_eq_nil_iff.1 hxs.symm
      exact .nil
    | cons k operands ih =>
      intro xs hxs hle
      cases xs with
      | nil => cases hxs
      | cons x xs =>
        obtain ⟨hx, hxs⟩ := List.cons.inj hxs
        exact .cons (hle k List.mem_cons_self x hx)
          (ih hxs fun k hk => hle k (List.mem_cons_of_mem _ hk))
  exact hall hxs h

/-- The operands of a node with a cost have choices. -/
theorem costAtMost_of_nodeCost? (h : nodeCost? ch c = some n)
    (hmax : ∀ {i x}, chosen ch i = some x → x.cost ≤ maxCost) (hk : k ∈ c.operands) :
    CostAtMost (chosen ch k) n := by
  obtain ⟨xs, hxs, rfl⟩ := addCosts?_eq_some_iff.1 h
  have hmem : chosen ch k ∈ xs.map some := hxs ▸ List.mem_map_of_mem hk
  obtain ⟨x, hx, hkx⟩ := List.mem_map.1 hmem
  exact ⟨x, hkx.symm, le_foldl_addCost_of_mem (List.mem_map_of_mem hx) (hmax hkx.symm)⟩

/-- No choice is left for a more costly one. -/
def Improves (ch ch' : Array (Option Choice)) : Prop :=
  ∀ i n, CostAtMost (chosen ch i) n → CostAtMost (chosen ch' i) n

theorem Improves.nodeCost? (h : Improves ch ch') (hc : nodeCost? ch c = some n) :
    ∃ n', EqualityGraph.nodeCost? ch' c = some n' ∧ n' ≤ n := by
  obtain ⟨xs, hxs, rfl⟩ := addCosts?_eq_some_iff.1 hc
  have hcost : ∃ v : Nat → Nat, c.operands.map v = xs.map Choice.cost ∧
      ∀ k ∈ c.operands, CostAtMost (chosen ch k) (v k) := by
    refine ⟨fun k => ((chosen ch k).map Choice.cost).getD 0, ?_, fun k hk => ?_⟩
    · have := congrArg (List.map fun o : Option Choice => (o.map Choice.cost).getD 0) hxs
      simpa [Function.comp_def] using this
    · have hmem : chosen ch k ∈ xs.map some := hxs ▸ List.mem_map_of_mem hk
      obtain ⟨x, -, hkx⟩ := List.mem_map.1 hmem
      exact ⟨x, hkx.symm, by simp [← hkx]⟩
  obtain ⟨v, hv, hle⟩ := hcost
  have hnode := nodeCost?_le (r := id) c.head fun k hk => h k (v k) (hle k hk)
  rw [List.map_id, hv] at hnode
  exact hnode

/-! ### Improving a choice -/

/-- The cheapest node is the choice made already or a cheaper node, and no node is cheaper. -/
theorem cheapest_spec (ch : Array (Option Choice)) (best : Option Choice) (cs : List Cell) :
    (cheapest ch best cs = best ∨ ∃ c ∈ cs, ∃ n, nodeCost? ch c = some n ∧
      cheapest ch best cs = some ⟨n, c⟩ ∧ ∀ x, best = some x → n < x.cost) ∧
    (∀ n, CostAtMost best n → CostAtMost (cheapest ch best cs) n) ∧
    ∀ c ∈ cs, ∀ n, nodeCost? ch c = some n → CostAtMost (cheapest ch best cs) n := by
  induction cs generalizing best with
  | nil => exact ⟨.inl rfl, fun _ h => h, fun c hc => absurd hc List.not_mem_nil⟩
  | cons c cs ih =>
    have hstep : cheapest ch best (c :: cs) = cheapest ch best cs ∧
          (∀ n, nodeCost? ch c = some n → CostAtMost best n) ∨
        ∃ n, nodeCost? ch c = some n ∧ cheapest ch best (c :: cs) = cheapest ch (some ⟨n, c⟩) cs ∧
          ∀ x, best = some x → n < x.cost := by
      simp only [cheapest, List.foldl_cons]
      cases hc : nodeCost? ch c with
      | none => exact .inl ⟨rfl, fun n hn => by cases hn⟩
      | some cost =>
        cases best with
        | none => exact .inr ⟨cost, rfl, rfl, fun x hx => by cases hx⟩
        | some known =>
          dsimp only
          split
          · next hlt =>
            refine .inr ⟨cost, rfl, rfl, fun x hx => ?_⟩
            cases hx
            exact hlt
          · next hge =>
            refine .inl ⟨rfl, fun n hn => ⟨known, rfl, ?_⟩⟩
            cases hn
            exact Nat.le_of_not_lt hge
    rcases hstep with ⟨heq, hle⟩ | ⟨m, hm, heq, hlt⟩
    · obtain ⟨hcases, hbest, hall⟩ := ih best
      rw [heq]
      refine ⟨hcases.imp_right ?_, hbest, ?_⟩
      · rintro ⟨d, hd, hrest⟩
        exact ⟨d, List.mem_cons_of_mem c hd, hrest⟩
      · intro d hd n hn
        rcases List.mem_cons.1 hd with rfl | hd
        · exact hbest n (hle n hn)
        · exact hall d hd n hn
    · obtain ⟨hcases, hbest, hall⟩ := ih (some ⟨m, c⟩)
      rw [heq]
      refine ⟨.inr ?_, fun n hn => ?_, fun d hd n hn => ?_⟩
      · rcases hcases with hsame | ⟨d, hd, n, hn, hsome, hnm⟩
        · exact ⟨c, List.mem_cons_self, m, hm, hsame, hlt⟩
        · exact ⟨d, List.mem_cons_of_mem c hd, n, hn, hsome, fun x hx =>
            Nat.lt_trans (hnm _ rfl) (hlt x hx)⟩
      · obtain ⟨x, hx, hxn⟩ := hn
        exact hbest n ⟨_, rfl, Nat.le_of_lt (Nat.lt_of_lt_of_le (hlt x hx) hxn)⟩
      · rcases List.mem_cons.1 hd with rfl | hd
        · cases hm.symm.trans hn
          exact hbest m ⟨_, rfl, Nat.le_refl m⟩
        · exact hall d hd n hn

/-- Improving a choice leaves the choices as they are, or makes a cheaper one. -/
theorem improveClass_cases (g : EqualityGraph) (changed : Bool) (ch : Array (Option Choice))
    (i : Nat) :
    g.improveClass (changed, ch) i = (changed, ch) ∧
        (∀ c ∈ g.nodes i, ∀ n, nodeCost? ch c = some n → CostAtMost (chosen ch i) n) ∨
      ∃ c ∈ g.nodes i, ∃ n, nodeCost? ch c = some n ∧
        g.improveClass (changed, ch) i = (true, ch.setIfInBounds i (some ⟨n, c⟩)) ∧
        (∀ x, chosen ch i = some x → n < x.cost) ∧
        ∀ d ∈ g.nodes i, ∀ m, nodeCost? ch d = some m → n ≤ m := by
  obtain ⟨hcases, -, hall⟩ := cheapest_spec ch (chosen ch i) (g.nodes i)
  unfold improveClass
  dsimp only
  rw [show ch[i]?.join = chosen ch i from rfl]
  split
  · next hsame =>
    refine .inl ⟨rfl, fun c hc n hn => ?_⟩
    obtain ⟨x, hx, hxn⟩ := hall c hc n hn
    rw [hx, Option.map_some, eq_comm, Option.map_eq_some_iff] at hsame
    obtain ⟨y, hy, hyx⟩ := hsame
    exact ⟨y, hy, hyx ▸ hxn⟩
  · next hother =>
    rcases hcases with hbest | ⟨c, hc, n, hn, hbest, hlt⟩
    · exact absurd (congrArg _ hbest) hother
    · refine .inr ⟨c, hc, n, hn, ?_, hlt, fun d hd m hm => ?_⟩
      · rw [hbest]
      · obtain ⟨x, hx, hxm⟩ := hall d hd m hm
        cases hbest.symm.trans hx
        exact hxm

/-! ### Choices that nodes support -/

/-- Every choice is a node of its class that costs no more than recorded with the present choices,
and no class is below itself: operands cost less than their users, or as much and have a lower
rank. -/
structure Supported (g : EqualityGraph) (ch : Array (Option Choice)) : Prop where
  /-- Each class has a place. -/
  size_eq : ch.size = g.classes.size
  /-- The choice is a node of the class. -/
  mem_nodes : ∀ {i x}, chosen ch i = some x → x.node ∈ g.nodes i
  /-- The cost is a cost. -/
  cost_le : ∀ {i x}, chosen ch i = some x → x.cost ≤ maxCost
  /-- The node costs no more than recorded. -/
  nodeCost?_le : ∀ {i x}, chosen ch i = some x → ∃ n, nodeCost? ch x.node = some n ∧ n ≤ x.cost
  /-- No class is below itself. -/
  exists_rank : ∃ rank : Nat → Nat, ∀ {i x k y}, chosen ch i = some x → k ∈ x.node.operands →
    chosen ch k = some y → y.cost < x.cost ∨ y.cost = x.cost ∧ rank k < rank i

theorem supported_none (g : EqualityGraph) :
    g.Supported (Array.replicate g.classes.size none) := by
  have hnone : ∀ i, chosen (Array.replicate g.classes.size none) i = none := by
    intro i
    rw [chosen, Array.getElem?_replicate]
    split <;> rfl
  refine ⟨Array.size_replicate, ?_, ?_, ?_, fun _ => 0, ?_⟩
  all_goals
    intro i x
    rw [hnone]
  · exact fun h => by cases h
  · exact fun h => by cases h
  · exact fun h => by cases h
  · exact fun h => by cases h

theorem Supported.improves_set (h : g.Supported ch) (hi : i < g.classes.size)
    (hlt : ∀ x, chosen ch i = some x → n < x.cost) :
    Improves ch (ch.setIfInBounds i (some ⟨n, c⟩)) := by
  rintro k m ⟨x, hx, hxm⟩
  rw [CostAtMost, chosen_setIfInBounds (h.size_eq ▸ hi)]
  split
  · next hk =>
    exact ⟨_, rfl, Nat.le_of_lt (Nat.lt_of_lt_of_le (hlt x (hk ▸ hx)) hxm)⟩
  · exact ⟨x, hx, hxm⟩

/-- A cheaper choice is supported. -/
theorem Supported.set (h : g.Supported ch) (hi : i < g.classes.size) (hc : c ∈ g.nodes i)
    (hn : nodeCost? ch c = some n) (hlt : ∀ x, chosen ch i = some x → n < x.cost) :
    g.Supported (ch.setIfInBounds i (some ⟨n, c⟩)) := by
  have hset : ∀ {k}, chosen (ch.setIfInBounds i (some ⟨n, c⟩)) k =
      if k = i then some ⟨n, c⟩ else chosen ch k := chosen_setIfInBounds (h.size_eq ▸ hi)
  have himproves := h.improves_set (c := c) hi hlt
  have hle : n ≤ maxCost := by
    obtain ⟨xs, -, rfl⟩ := addCosts?_eq_some_iff.1 hn
    exact foldl_addCost_le c.head.cost_le
  have hoperand : ∀ k ∈ c.operands, CostAtMost (chosen ch k) n :=
    fun k hk => costAtMost_of_nodeCost? hn h.cost_le hk
  obtain ⟨rank, hrank⟩ := h.exists_rank
  refine ⟨by rw [Array.size_setIfInBounds, h.size_eq], ?_, ?_, ?_, ?_⟩
  · intro k x hx
    rw [hset] at hx
    split at hx
    · next hk =>
      cases hx
      exact hk ▸ hc
    · exact h.mem_nodes hx
  · intro k x hx
    rw [hset] at hx
    split at hx
    · cases hx
      exact hle
    · exact h.cost_le hx
  · intro k x hx
    rw [hset] at hx
    split at hx
    · cases hx
      exact himproves.nodeCost? hn
    · obtain ⟨m, hm, hmx⟩ := h.nodeCost?_le hx
      obtain ⟨m', hm', hle'⟩ := himproves.nodeCost? hm
      exact ⟨m', hm', Nat.le_trans hle' hmx⟩
  · -- the class gets a rank above those of its operands; its users cost more than it does now
    refine ⟨fun k => if k = i then (c.operands.map rank).sum + 1 else rank k, ?_⟩
    intro j x k y hx hk hy
    rw [hset] at hx hy
    split at hx
    · next hj =>
      cases hx
      obtain ⟨z, hz, hzn⟩ := hoperand k hk
      have hki : k ≠ i := by
        rintro rfl
        exact absurd (hlt z hz) (Nat.not_lt_of_le hzn)
      rw [if_neg hki, hz] at hy
      cases hy
      rcases Nat.lt_or_eq_of_le hzn with hzn | hzn
      · exact .inl hzn
      · refine .inr ⟨hzn, ?_⟩
        dsimp only
        rw [if_neg hki, if_pos hj]
        exact Nat.lt_succ_of_le (List.le_sum_of_mem (List.mem_map_of_mem hk))
    · next hj =>
      split at hy
      · next hki =>
        cases hy
        subst hki
        obtain ⟨m, hm, -⟩ := h.nodeCost?_le hx
        obtain ⟨z, hz, -⟩ := costAtMost_of_nodeCost? hm h.cost_le hk
        have hzx : z.cost ≤ x.cost := (hrank hx hk hz).elim Nat.le_of_lt fun h => Nat.le_of_eq h.1
        exact .inl (Nat.lt_of_lt_of_le (hlt z hz) hzx)
      · next hki =>
        dsimp only
        rw [if_neg hki, if_neg hj]
        exact hrank hx hk hy

/-! ### Rounds -/

/-- One round of improvements, and whether there were any. -/
def round (g : EqualityGraph) (ch : Array (Option Choice)) : Bool × Array (Option Choice) :=
  (List.range g.classes.size).foldl g.improveClass (false, ch)

theorem Supported.improveClass (h : g.Supported ch) (hi : i < g.classes.size) (changed : Bool) :
    g.Supported (g.improveClass (changed, ch) i).2 ∧
      Improves ch (g.improveClass (changed, ch) i).2 ∧
      ∀ c ∈ g.nodes i, ∀ n, nodeCost? ch c = some n →
        CostAtMost (chosen (g.improveClass (changed, ch) i).2 i) n := by
  rcases improveClass_cases g changed ch i with ⟨heq, hall⟩ | ⟨c, hc, n, hn, heq, hlt, hall⟩
  · rw [heq]
    exact ⟨h, fun _ _ hx => hx, hall⟩
  · rw [heq]
    refine ⟨h.set hi hc hn hlt, h.improves_set hi hlt, fun d hd m hm =>
      ⟨⟨n, c⟩, ?_, hall d hd m hm⟩⟩
    rw [chosen_setIfInBounds (h.size_eq ▸ hi), if_pos rfl]

theorem Supported.foldl_improveClass (h : g.Supported ch) {is : List Nat}
    (his : ∀ i ∈ is, i < g.classes.size) (changed : Bool) :
    g.Supported (is.foldl g.improveClass (changed, ch)).2 ∧
      Improves ch (is.foldl g.improveClass (changed, ch)).2 := by
  induction is generalizing ch changed with
  | nil => exact ⟨h, fun _ _ hx => hx⟩
  | cons i is ih =>
    obtain ⟨hsupported, himproves, -⟩ := h.improveClass (his i List.mem_cons_self) changed
    obtain ⟨hend, hrest⟩ := ih hsupported (fun j hj => his j (List.mem_cons_of_mem i hj))
      (g.improveClass (changed, ch) i).1
    exact ⟨hend, fun k n hx => hrest k n (himproves k n hx)⟩

theorem Supported.round (h : g.Supported ch) : g.Supported (g.round ch).2 :=
  (h.foldl_improveClass (fun _ => List.mem_range.1) false).1

/-- After a round a class costs no more than each of its nodes did before. -/
theorem Supported.costAtMost_round (h : g.Supported ch) (hi : i < g.classes.size)
    (hc : c ∈ g.nodes i) (hn : nodeCost? ch c = some n) :
    CostAtMost (chosen (g.round ch).2 i) n := by
  obtain ⟨before, after, hrange⟩ := List.append_of_mem (List.mem_range.2 hi)
  have hlt : ∀ j ∈ before ++ i :: after, j < g.classes.size :=
    fun j hj => List.mem_range.1 (hrange ▸ hj)
  rw [EqualityGraph.round, hrange, List.foldl_append, List.foldl_cons]
  obtain ⟨hbefore, himproves⟩ := h.foldl_improveClass
    (fun j hj => hlt j (List.mem_append_left _ hj)) false
  generalize before.foldl g.improveClass (false, ch) = state at hbefore himproves
  obtain ⟨n', hn', hle⟩ := himproves.nodeCost? hn
  obtain ⟨hsupported, -, hcost⟩ := hbefore.improveClass hi state.1
  obtain ⟨x, hx, hxn⟩ := hcost c hc n' hn'
  refine (hsupported.foldl_improveClass (fun j hj => hlt j ?_) _).2 i n ⟨x, hx, ?_⟩
  · exact List.mem_append_right _ (List.mem_cons_of_mem i hj)
  · exact Nat.le_trans hxn hle

/-- A round without improvements changes no choice. -/
theorem round_eq_of_unchanged (h : (g.round ch).1 = false) : (g.round ch).2 = ch := by
  have hstep : ∀ (s : Bool × Array (Option Choice)) (i : Nat),
      g.improveClass s i = s ∨ (g.improveClass s i).1 = true := by
    rintro ⟨changed, ch⟩ i
    rcases improveClass_cases g changed ch i with ⟨heq, -⟩ | ⟨c, -, n, -, heq, -⟩
    · exact .inl heq
    · exact .inr (by rw [heq])
  have htrue : ∀ (is : List Nat) (s : Bool × Array (Option Choice)), s.1 = true →
      (is.foldl g.improveClass s).1 = true := by
    intro is s hs
    refine foldl_keeps (P := fun s : Bool × Array (Option Choice) => s.1 = true) hs
      fun i _ s hs => ?_
    rcases hstep s i with heq | hnew
    · rwa [heq]
    · exact hnew
  have hrun : ∀ (is : List Nat) (s : Bool × Array (Option Choice)),
      (is.foldl g.improveClass s).1 = false → is.foldl g.improveClass s = s := by
    intro is
    induction is with
    | nil => exact fun s _ => rfl
    | cons i is ih =>
      intro s hs
      rcases hstep s i with heq | hnew
      · rw [List.foldl_cons, heq] at hs ⊢
        exact ih s hs
      · rw [List.foldl_cons, htrue is _ hnew] at hs
        cases hs
  exact congrArg Prod.snd (hrun _ _ h)

/-- What each round takes one step further has gone as many steps in the end as there were rounds to
make, even if the last of them are not made. -/
theorem improve_induction {P : Nat → Array (Option Choice) → Prop}
    (hround : ∀ m ch, g.Supported ch → P m ch → P (m + 1) (g.round ch).2) (fuel : Nat)
    {m : Nat} (h : g.Supported ch) (hP : P m ch) :
    g.Supported (g.improve fuel ch) ∧ P (m + fuel) (g.improve fuel ch) := by
  induction fuel generalizing m ch with
  | zero => exact ⟨h, hP⟩
  | succ fuel ih =>
    have hnext := hround m ch h hP
    have hsupported := h.round
    rw [improve]
    split
    · next ch' hch' =>
      have hch : (g.round ch).2 = ch' := congrArg Prod.snd hch'
      rw [hch] at hnext hsupported
      have := ih hsupported hnext
      rwa [Nat.add_right_comm] at this
    · next ch' hch' =>
      have hch : (g.round ch).2 = ch' := congrArg Prod.snd hch'
      have hfix := round_eq_of_unchanged (congrArg Prod.fst hch')
      rw [← hch, hfix]
      refine ⟨h, ?_⟩
      generalize fuel + 1 = rounds
      induction rounds with
      | zero => exact hP
      | succ rounds ihr =>
        have := hround _ ch h ihr
        rwa [hfix] at this

/-- The depth of a class below another: there are no more classes than depths, and the operands of a
choice are less deep. -/
theorem Supported.exists_depth (h : g.Supported ch) : ∃ depth : Nat → Nat,
    (∀ i, depth i ≤ g.classes.size) ∧
      ∀ {i x k}, chosen ch i = some x → k ∈ x.node.operands → depth k < depth i := by
  obtain ⟨rank, hrank⟩ := h.exists_rank
  let key (i : Nat) : ℕ ×ₗ ℕ := toLex (((chosen ch i).map Choice.cost).getD 0, rank i)
  refine ⟨fun i => ((Finset.range g.classes.size).filter fun k => key k < key i).card, ?_, ?_⟩
  · intro i
    exact (Finset.card_filter_le _ _).trans (Finset.card_range _).le
  · intro i x k hx hk
    obtain ⟨n, hn, -⟩ := h.nodeCost?_le hx
    obtain ⟨y, hy, -⟩ := costAtMost_of_nodeCost? hn h.cost_le hk
    have hkey : key k < key i := by
      rw [Prod.Lex.toLex_lt_toLex]
      simpa [hx, hy] using hrank hx hk hy
    have hlt : k < g.classes.size := by
      rw [← h.size_eq]
      by_contra hge
      rw [chosen, Array.getElem?_eq_none (Nat.le_of_not_lt hge)] at hy
      cases hy
    refine Finset.card_lt_card (Finset.ssubset_iff_of_subset ?_ |>.2 ⟨k, ?_, ?_⟩)
    · intro j hj
      rw [Finset.mem_filter] at hj ⊢
      exact ⟨hj.1, hj.2.trans hkey⟩
    · exact Finset.mem_filter.2 ⟨Finset.mem_range.2 hlt, hkey⟩
    · rw [Finset.mem_filter]
      exact fun hk => lt_irrefl _ hk.2

end EqualityGraph

end Resolvent

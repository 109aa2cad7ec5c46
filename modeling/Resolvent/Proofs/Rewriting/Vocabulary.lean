import Resolvent.Proofs.Rewriting.Simplification

/-!
# Rewriting invents no heads

What a term is rewritten to has heads of the term and of the right-hand sides of the rules only
(`Term.HeadsIn.minimize`), since no other nodes come into the equality graph
(`EqualityGraph.HeadsIn.saturate`) and the cheapest term is written with nodes of the graph.
-/

namespace Resolvent

variable {P : Head → Prop}

namespace EqualityGraph

variable {g : EqualityGraph} {c : Cell} {i j : Nat} {s : Binding} {limits : SaturationLimits}

/-- All heads of the nodes in classes are in a class of heads. -/
def HeadsIn (P : Head → Prop) (g : EqualityGraph) : Prop := ∀ i, ∀ c ∈ g.nodes i, P c.head

namespace HeadsIn

theorem empty : HeadsIn P {} := fun i c hc => by simp [nodes] at hc

/-! ### Building the graph -/

theorem addClass (h : g.HeadsIn P) (hc : P c.head) : (g.addClass c).2.HeadsIn P := by
  obtain ⟨hused, -⟩ := used_addUses (c := c) (i := g.leaders.size)
    (fun k => Used.refl _ (g.classes[k]?.getD {})) rfl
  intro k d hd
  rw [nodes_eq, classAt, EqualityGraph.addClass, Array.getElem?_push] at hd
  split at hd
  · exact List.mem_singleton.1 hd ▸ hc
  · rw [(hused k).nodes_eq] at hd
    exact h k d (nodes_eq ▸ hd)

theorem add (h : g.HeadsIn P) (hc : P c.head) : (g.add c).2.HeadsIn P := by
  unfold EqualityGraph.add
  dsimp only
  split
  · exact h
  · exact h.addClass hc

theorem absorb (h : g.HeadsIn P) : (g.absorb i j).HeadsIn P := by
  have hclass : ∀ k, ∀ d ∈ (g.classAt k).nodes, P d.head := fun k d hd => h k d (nodes_eq ▸ hd)
  have hemptied : ∀ (k : Nat) (d : Cell),
      d ∈ EqualityClass.nodes ((g.classes.setIfInBounds j {})[k]?.getD {}) → P d.head := by
    intro k d hd
    rw [Array.getElem?_setIfInBounds] at hd
    split at hd
    · split at hd <;> cases hd
    · exact hclass k d hd
  intro k d hd
  rw [nodes_eq, classAt, EqualityGraph.absorb, Array.getElem?_modify] at hd
  split at hd
  · rcases hk : (g.classes.setIfInBounds j {})[k]? with - | x <;> rw [hk] at hd
    · cases hd
    · have hx := hemptied k
      rw [hk] at hx
      exact (List.mem_append.1 hd).elim (hclass j d) (hx d)
  · exact hemptied k d hd

theorem join (h : g.HeadsIn P) : (g.join i j).2.HeadsIn P := by
  unfold EqualityGraph.join
  dsimp only
  split
  · exact h
  · split
    · exact h.absorb
    · exact h.absorb

theorem settle (h : g.HeadsIn P) (use : Cell × Nat) : (g.settle use).HeadsIn P := by
  unfold EqualityGraph.settle
  dsimp only
  have hknown : HeadsIn P
      { g with classOf := g.classOf.insert (g.canonical use.1) use.2 } := h
  split
  · exact hknown.join
  · exact hknown

theorem settleAll (h : g.HeadsIn P) (fuel : Nat) : (settleAll fuel g).HeadsIn P := by
  induction fuel generalizing g with
  | zero => exact h
  | succ fuel ih =>
    rw [EqualityGraph.settleAll]
    split
    · exact h
    · next use rest _ =>
      have hrest : HeadsIn P { g with pending := rest } := h
      exact ih (hrest.settle use)

theorem refresh (h : g.HeadsIn P) : g.refresh.HeadsIn P := by
  intro i c hc
  obtain ⟨d, hd, rfl⟩ := mem_nodes_refresh.1 hc
  exact h i d hd

theorem rebuild (h : g.HeadsIn P) : g.rebuild.HeadsIn P := (h.settleAll _).refresh

theorem reindex (h : g.HeadsIn P) : g.reindex.HeadsIn P := h

theorem cellsOf {t : Term} (h : g.HeadsIn P) (ht : t.HeadsIn P) :
    (EqualityGraph.cellsOf t g).2.HeadsIn P := by
  rw [EqualityGraph.cellsOf, ← Array.foldl_toList]
  refine foldl_keeps (P := fun s : Array Nat × EqualityGraph => s.2.HeadsIn P) h
    fun c hc s hs => ?_
  exact hs.add (ht c (Array.mem_toList_iff.1 hc))

/-! ### Applying rules -/

mutual

theorem instantiate : ∀ (p : Pattern) {g : EqualityGraph}, p.HeadsIn P → g.HeadsIn P →
    (EqualityGraph.instantiate s p g).2.HeadsIn P
  | .hole _, g, _, h => h
  | .node head args, g, hp, h => by
    rw [Pattern.HeadsIn] at hp
    rw [EqualityGraph.instantiate]
    exact (instantiateAll args hp.2 h).add hp.1

theorem instantiateAll : ∀ (ps : List Pattern) {g : EqualityGraph}, Pattern.AllHeadsIn P ps →
    g.HeadsIn P → (EqualityGraph.instantiateAll s ps g).2.HeadsIn P
  | [], g, _, h => h
  | p :: ps, g, hps, h => by
    rw [Pattern.AllHeadsIn] at hps
    rw [EqualityGraph.instantiateAll]
    exact instantiateAll ps hps.2 (instantiate p hps.1 h)

end

theorem applyRule {rhs : Pattern} (h : g.HeadsIn P) (hrhs : rhs.HeadsIn P) (ms : List Match) :
    (EqualityGraph.applyRule rhs ms g).2.HeadsIn P :=
  foldl_keeps (P := fun s : Bool × EqualityGraph => s.2.HeadsIn P) h fun _ _ _ hs =>
    (instantiate rhs hrhs hs).join

theorem applyRules (limits : SaturationLimits) {found : List (List Match × Turn)}
    (h : g.HeadsIn P) (hfound : ∀ x ∈ found, x.2.rule.rhs.HeadsIn P) (changed : Bool) :
    (EqualityGraph.applyRules limits found changed g).2.HeadsIn P := by
  induction found generalizing g changed with
  | nil => exact h
  | cons x found ih =>
    obtain ⟨hx, hfound⟩ := List.forall_mem_cons.1 hfound
    have hstep := h.applyRule hx x.1
    rw [EqualityGraph.applyRules]
    dsimp only
    split
    · exact hstep
    · exact ih hstep hfound _

theorem saturateLoop (fuel round : Nat) {turns : List Turn} (h : g.HeadsIn P)
    (hturns : ∀ t ∈ turns, t.rule.rhs.HeadsIn P) :
    (EqualityGraph.saturateLoop limits fuel round turns g).HeadsIn P := by
  induction fuel generalizing round turns g with
  | zero => exact h
  | succ fuel ih =>
    rw [EqualityGraph.saturateLoop]
    split
    · exact h
    · have hfound : ∀ x ∈ turns.map (Turn.search g.reindex round), x.2.rule.rhs.HeadsIn P := by
        intro x hx
        obtain ⟨t, ht, rfl⟩ := List.mem_map.1 hx
        rw [Turn.rule_search]
        exact hturns t ht
      have hround := (h.reindex.applyRules limits hfound false).rebuild
      have hturns' : ∀ t ∈ (turns.map (Turn.search g.reindex round)).map Prod.snd,
          t.rule.rhs.HeadsIn P := List.forall_mem_map.2 hfound
      dsimp only
      split
      · exact hround
      · split
        · exact ih _ hround hturns'
        · split
          · exact hround
          · refine ih _ hround fun t ht => ?_
            obtain ⟨u, hu, hut⟩ := mem_shortenRests ht
            exact hut ▸ hturns' u hu

/-- Saturation adds no heads but those of the right-hand sides of rules. -/
theorem saturate (limits : SaturationLimits) {rules : List Rule} (h : g.HeadsIn P)
    (hrules : ∀ r ∈ rules, r.rhs.HeadsIn P) : (g.saturate limits rules).HeadsIn P :=
  h.rebuild.saturateLoop _ _ (List.forall_mem_map.2 hrules)

/-! ### Writing the cheapest term -/

theorem choices (h : g.HeadsIn P) {x : Choice} (hx : chosen g.choices i = some x) :
    P x.node.head := by
  obtain ⟨hsupported, -⟩ := improve_induction (P := fun _ _ => True) (fun _ _ _ _ => trivial)
    (g.classes.size + 1) (supported_none g) (m := 0) trivial
  exact h i x.node (hsupported.mem_nodes hx)

theorem write {ch : Array (Option Choice)} (hch : ∀ {i x}, chosen ch i = some x → P x.node.head)
    (fuel i : Nat) {w : Writing} (hw : w.term.HeadsIn P) : (write ch fuel i w).term.HeadsIn P := by
  induction fuel generalizing i w with
  | zero => exact hw
  | succ fuel ih =>
    rw [EqualityGraph.write]
    split
    · exact hw
    · split
      · exact hw
      · next x hx =>
        have hoperands : (x.node.operands.foldr (EqualityGraph.write ch fuel) w).term.HeadsIn P :=
          foldr_keeps (P := fun w : Writing => w.term.HeadsIn P) hw fun k _ _ hw => ih k hw
        exact Term.headsIn_push_iff.2 ⟨hoperands, hch hx⟩

theorem extract (h : g.HeadsIn P) (i : Nat) : (g.extract i).HeadsIn P :=
  write h.choices _ i fun c hc => by simp at hc

end HeadsIn

end EqualityGraph

/-- What a term is rewritten to has no heads but those of the term and of the right-hand sides of
the rules, within all limits. -/
theorem Term.HeadsIn.minimize {t : Term} {rules : List Rule} (ht : t.HeadsIn P)
    (hrules : ∀ r ∈ rules, r.rhs.HeadsIn P) (limits : SaturationLimits) :
    (t.minimize limits rules).HeadsIn P := by
  rw [Term.minimize, addTerm_eq]
  exact ((EqualityGraph.HeadsIn.empty.cellsOf ht).saturate limits hrules).extract _

theorem Simplifier.saturation_keepsHeads (limits : SaturationLimits) :
    (saturation limits).KeepsHeads :=
  fun _ _ _ ht hrules => ht.minimize hrules limits

end Resolvent

import Resolvent.Proofs.Expression.Traversal
import Resolvent.Proofs.Form.Inlining
import Resolvent.Proofs.Rewriting.Vocabulary
import Resolvent.Proofs.Solve.Classification
import Resolvent.Proofs.Solve.Dependencies
import Resolvent.Proofs.Solve.SingleEquation

/-!
# The variables of a system, classified

A catalog that is filled without a halt has a form for each equation, and its unknowns are the symbols
that the equations depend on, each where it is met first in an equation that depends on it
(`Catalog.classify_variables`).  No symbol of a form is missing, no unknown has a value that would be
put in its place, and all predefined variables have one.

The induction is on the equations.  While they are classified the arena grows by nodes only, so that
the equations still to come and the definitions mean what they did at the start (`Catalog.Noted`).
-/

namespace Resolvent

variable {A B : Arena} {h : Handle} {hs : List Handle} {Γ : Context Handle}

/-! ### Arenas that grow by nodes -/

theorem Arena.GrowsTo.expression_eq (hAB : A.GrowsTo B) (hA : A.WellFormed) (hh : Stored h A) :
    B.expression h = A.expression h := by
  obtain ⟨e, he⟩ := hA.exists_expression? hh
  rw [Arena.expression, Arena.expression, he, hAB.expression? he]

/-- Definitions with stored values and bodies mean the same in an arena with the same names. -/
theorem Arena.GrowsTo.definitions_eq (hAB : A.GrowsTo B) (hA : A.WellFormed)
    (hsymbols : B.symbols = A.symbols) (hΓ : ∀ b ∈ Γ.bodies, Stored b A) :
    Γ.definitions B = Γ.definitions A := by
  have hname : B.symbolName? = A.symbolName? := by
    funext id
    rw [Arena.symbolName?, Arena.symbolName?, hsymbols]
  have hid : B.symbolId? = A.symbolId? := by
    funext name
    rw [Arena.symbolId?, Arena.symbolId?, hsymbols]
  have hvalue : (Γ.definitions B).value? = (Γ.definitions A).value? := by
    funext id
    rw [Expression.value?_definitions, Expression.value?_definitions, hname]
    refine Option.map_congr fun v hv => ?_
    obtain ⟨name, -, hv⟩ := Option.bind_eq_some_iff.1 hv
    exact hAB.expression_eq hA (hΓ v (Expression.mem_bodies_of_value? hv))
  have hfunction : (Γ.definitions B).function? = (Γ.definitions A).function? := by
    funext id
    rw [Expression.function?_definitions, Expression.function?_definitions, hname, hid]
    refine Option.map_congr fun d hd => ?_
    obtain ⟨name, -, hd⟩ := Option.bind_eq_some_iff.1 hd
    rw [hAB.expression_eq hA (hΓ d.2 (Expression.mem_bodies_of_function? hd))]
  exact Definitions.mk.injEq .. |>.mpr ⟨hvalue, hfunction⟩

/-! ### Lists of symbols -/

theorem nodup_addNew {known : List Nat} (h : known.Nodup) (ids : List Nat) :
    (addNew known ids).Nodup := by
  induction ids generalizing known with
  | nil => exact h
  | cons id ids ih =>
    refine ih ?_
    dsimp only
    split
    · exact h
    · next hnew =>
      rw [← List.concat_eq_append]
      exact List.Nodup.concat (fun hid => hnew (List.contains_iff_mem.2 hid)) h

theorem nodup_collectUnknowns (keep : Nat → Bool) (most : Nat) (ids : List Nat) {known : List Nat}
    (h : known.Nodup) : (collectUnknowns keep most ids known).1.Nodup := by
  induction ids generalizing known with
  | nil => exact h
  | cons id ids ih =>
    unfold collectUnknowns
    split
    · exact ih h
    · next hskip =>
      split
      · exact h
      · rw [← List.concat_eq_append]
        refine ih (List.Nodup.concat (fun hid => hskip ?_) h)
        rw [List.contains_iff_mem.2 hid, Bool.or_true]

/-- What is added has the property that is asked for. -/
theorem mem_collectUnknowns {keep : Nat → Bool} {most : Nat} {ids known : List Nat} {id : Nat}
    (h : id ∈ (collectUnknowns keep most ids known).1) : id ∈ known ∨ keep id = true := by
  induction ids generalizing known with
  | nil => exact .inl h
  | cons x ids ih =>
    unfold collectUnknowns at h
    split at h
    · exact ih h
    · next hskip =>
      split at h
      · exact .inl h
      · rcases ih h with hid | hid
        · rcases List.mem_append.1 hid with hid | hid
          · exact .inl hid
          · rw [List.mem_singleton.1 hid]
            simp only [Bool.or_eq_true, Bool.not_eq_true', not_or, Bool.not_eq_false] at hskip
            exact .inr hskip.1
        · exact .inr hid

/-- Where all symbols find room, just the new ones are added. -/
theorem collectUnknowns_eq_addNew {most : Nat} {ids known : List Nat}
    (h : (collectUnknowns (fun _ => true) most ids known).2 = none) :
    (collectUnknowns (fun _ => true) most ids known).1 = addNew known ids := by
  induction ids generalizing known with
  | nil => rfl
  | cons id ids ih =>
    rw [addNew, List.foldl_cons]
    unfold collectUnknowns at h ⊢
    simp only [Bool.not_true, Bool.false_or] at h ⊢
    split at h
    · next hknown => rw [if_pos hknown, if_pos hknown]; exact ih h
    · next hnew =>
      split at h
      · cases h
      · next hroom =>
        rw [if_neg hnew, if_neg hnew, if_neg hroom]
        exact ih h

/-! ### Catalogs -/

namespace Catalog

open Stage

/-- What is met while an equation is expanded. -/
def encounters (c : Canonizer) (A : Arena) (h : Handle) : List Encounter :=
  (A.expression h).encounters (c.context.definitions A) c.mode

/-- The form is the canonical form of the equation, computed at some moment where the arena has grown
by nodes. -/
def IsForm (c : Canonizer) (A : Arena) (h : Handle) (f : Form) : Prop :=
  ∃ moment B r C, A.GrowsTo B ∧ B.Consistent A.symbols ∧
    Build.canonical { c with moment } h B = (.ok r, C) ∧ r.form = f

/-- The symbols that equations with these forms depend on, equation by equation. -/
def dependencies (c : Canonizer) (A : Arena) (hs : List Handle) (forms : List Form) : List Nat :=
  (hs.zip forms).flatMap fun x => x.2.dependencies (encounters c A x.1)

/-- The catalog classifies the variables of equations. -/
structure Classifies (c : Canonizer) (A : Arena) (hs : List Handle) (k : Catalog) : Prop where
  /-- There is one form for each equation, in order. -/
  forms : List.Forall₂ (IsForm c A) hs k.forms
  /-- The unknowns stand where they are met first in an equation that depends on them. -/
  unknowns : k.unknowns = addNew [] (dependencies c A hs k.forms)
  /-- No unknown is listed twice. -/
  nodup_unknowns : k.unknowns.Nodup
  /-- There are not too many unknowns. -/
  length_unknowns : k.unknowns.length ≤ maxVariables
  /-- The symbols of the forms are unknowns. -/
  symbols : ∀ f ∈ k.forms, f.SymbolsIn (· ∈ k.unknowns)
  /-- No predefined variable is listed twice. -/
  nodup_predefined : k.predefined.Nodup
  /-- There are not too many predefined variables. -/
  length_predefined : k.predefined.length ≤ maxVariables
  /-- Predefined variables have values. -/
  value_predefined : ∀ id ∈ k.predefined, ∃ name v, A.symbolName? id = some name ∧
    c.context.value? name = some v
  /-- Where variables are replaced, no unknown has a value. -/
  value_unknowns : c.mode = .replaceAll → ∀ id ∈ k.unknowns, ∀ name,
    A.symbolName? id = some name → c.context.value? name = none
  /-- Where variables are replaced, no unknown is predefined. -/
  disjoint : c.mode = .replaceAll → k.unknowns.Disjoint k.predefined

/-- The equations have been noted in the catalog, and the arena has grown by nodes meanwhile. -/
structure Noted (c : Canonizer) (A : Arena) (hs : List Handle) (x : Catalog × Arena) : Prop where
  grows : A.GrowsTo x.2
  consistent : x.2.Consistent A.symbols
  forms : List.Forall₂ (IsForm c A) hs x.1.forms
  unknowns : x.1.unknowns = addNew [] (dependencies c A hs x.1.forms)
  length_unknowns : x.1.unknowns.length ≤ maxVariables
  nodup_predefined : x.1.predefined.Nodup
  length_predefined : x.1.predefined.length ≤ maxVariables
  predefined : ∀ id ∈ x.1.predefined, isPredefined c.context A id = true

section

variable {c : Canonizer} {x : Catalog × Arena} {k : Catalog} {n : Nat}

/-! ### What one equation adds -/

/-- The catalog and the arena before any equation. -/
theorem Noted.nil (hA : A.WellFormed) : Noted c A [] ({}, A) where
  grows := .refl A
  consistent := ⟨hA, rfl⟩
  forms := .nil
  unknowns := rfl
  length_unknowns := Nat.zero_le _
  nodup_predefined := .nil
  length_predefined := Nat.zero_le _
  predefined := nofun

/-- What is computed for an equation leaves the catalog as it is. -/
theorem Noted.after {ε α : Type} {m : BuildT ε α} {Q : α → Arena → Prop} (hx : Noted c A hs x)
    (hm : Yields id (Arena.Consistent x.2.symbols) m x.2 Q) : Noted c A hs (x.1, (m x.2).2) :=
  { hx with
    grows := hx.grows.trans hm.grows
    consistent := hx.consistent.symbols ▸ hm.keeps }

/-- In an arena that has grown by nodes, the canonical form of an equation comes with the symbols
that the equation depends on. -/
theorem canonical_depends_of_grows (hc : c.simplifier.KeepsHeads) (hA : A.WellFormed)
    (hΓ : ∀ b ∈ c.context.bodies, Stored b A) (hh : Stored h A) (hAB : A.GrowsTo B)
    (hB : B.Consistent A.symbols) {r : Canonical} {C : Arena}
    (hrun : Build.canonical { c with moment := n } h B = (.ok r, C)) :
    r.symbols = r.form.dependencies (encounters c A h) ∧ r.form.SymbolsIn (· ∈ r.symbols) := by
  have hdepends := Build.canonical_depends (c := { c with moment := n }) hc h hB.wellFormed
  have hresult := hdepends.result r (congrArg Prod.fst hrun)
  rwa [hAB.expression_eq hA hh, hAB.definitions_eq hA hB.symbols hΓ] at hresult

/-- Run from a state, the stage goes on only where it has noted the equations. -/
def Notes (c : Canonizer) (A : Arena) (hs : List Handle) (m : Stage Catalog Unit)
    (x : Catalog × Arena) : Prop := Ends m x fun r y => r = .ok () → Noted c A hs y

/-- Predefined variables of a canonical form are added to those known. -/
theorem Noted.notePredefined (hx : Noted c A hs x) (r : Except CanonicalError Canonical) :
    Noted c A hs (x.1.notePredefined c.context x.2 r, x.2) := by
  rcases r with e | r
  · exact hx
  refine { hx with
    nodup_predefined := nodup_collectUnknowns _ _ _ hx.nodup_predefined
    length_predefined := length_collectUnknowns_le _ _ hx.length_predefined
    predefined := fun id hid => ?_ }
  rcases mem_collectUnknowns hid with hid | hid
  · exact hx.predefined id hid
  · rwa [isPredefined, Arena.symbolName?, hx.consistent.symbols] at hid

section

variable (hc : c.simplifier.KeepsHeads) (hA : A.WellFormed)
  (hΓ : ∀ b ∈ c.context.bodies, Stored b A)

include hc hA hΓ

/-- Noting a canonical form adds the form and the symbols that the equation depends on. -/
theorem noteForm_notes (hh : Stored h A) (hx : Noted c A hs x) {r : Canonical} {C : Arena}
    (hAB : A.GrowsTo B) (hB : B.Consistent A.symbols)
    (hrun : Build.canonical { c with moment := n } h B = (.ok r, C)) :
    Notes c A (hs ++ [h]) (noteForm r) x := by
  obtain ⟨hsymbols, -⟩ := canonical_depends_of_grows hc hA hΓ hh hAB hB hrun
  have hlength := length_collectUnknowns_le (fun _ => true) r.symbols hx.length_unknowns
  refine Ends.look_bind (Ends.update_bind ?_)
  split
  · exact nofun
  · next hroom =>
    have hunknowns : (collectUnknowns (fun _ => true) maxVariables r.symbols x.1.unknowns).1 =
        addNew [] (dependencies c A (hs ++ [h]) (x.1.forms ++ [r.form])) := by
      rw [collectUnknowns_eq_addNew hroom, hsymbols, hx.unknowns, ← addNew_append, dependencies,
        dependencies, List.zip_append hx.forms.length_eq, List.flatMap_append]
      simp
    exact fun _ => { hx with
      forms := List.rel_append hx.forms (.cons ⟨n, B, r, C, hAB, hB, hrun, rfl⟩ .nil)
      unknowns := hunknowns
      length_unknowns := hlength }

theorem noteResult_notes (hh : Stored h A) (hx : Noted c A hs x)
    {r : Except CanonicalError Canonical} {C : Arena} (hAB : A.GrowsTo B)
    (hB : B.Consistent A.symbols)
    (hrun : Build.canonical { c with moment := n } h B = (r, C)) :
    Notes c A (hs ++ [h]) (noteResult r) x := by
  unfold noteResult
  split
  · exact noteForm_notes hc hA hΓ hh hx hAB hB hrun
  all_goals exact nofun

theorem settle_notes (hh : Stored h A) (hx : Noted c A hs x) :
    Notes c A (hs ++ [h]) (settle (Build.canonical { c with moment := n } h) >>= noteResult) x := by
  have hafter := hx.after
    (Build.canonical_depends (c := { c with moment := n }) hc h hx.consistent.wellFormed)
  exact noteResult_notes hc hA hΓ hh hafter hx.grows hx.consistent rfl

/-- Classifying one more equation notes it. -/
theorem noteEquation_notes (hh : Stored h A) (hx : Noted c A hs x) :
    Notes c A (hs ++ [h]) (noteEquation { c with moment := n } h) x := by
  refine Ends.look_bind ?_
  split
  · let symbolic : Canonizer := { c with mode := .functionsOnly, moment := n }
    have hafter := hx.after
      (Build.canonical_depends (c := symbolic) hc h hx.consistent.wellFormed)
    have hknown := hafter.notePredefined (Build.canonical symbolic h x.2).1
    refine Ends.settle_bind (Ends.arena_bind (Ends.update_bind ?_))
    split
    · next hends =>
      rcases hends with hmode | hoverflows
      · -- no variable is replaced, so that the form is at hand
        obtain ⟨Γ, mode, p, simplifier, moment⟩ := c
        obtain rfl : mode = .functionsOnly := hmode
        exact noteResult_notes hc hA hΓ hh hknown hx.grows hx.consistent rfl
      · rw [noteResult_of_overflows hoverflows]
        exact nofun
    · exact settle_notes hc hA hΓ hh hknown
  · exact settle_notes hc hA hΓ hh hx

theorem noteAll_notes {hs' : List Handle} (hhs : ∀ h ∈ hs', Stored h A) (hx : Noted c A hs x) :
    Notes c A (hs ++ hs') (noteAll { c with moment := n } hs') x := by
  induction hs' generalizing hs x n with
  | nil => exact fun _ => (List.append_nil hs).symm ▸ hx
  | cons h hs' ih =>
    obtain ⟨hh, hhs⟩ := List.forall_mem_cons.1 hhs
    rw [List.append_cons]
    exact (noteEquation_notes hc hA hΓ hh hx).bind (fun _ y hy => ih hhs (hy rfl)) nofun

end

/-- A symbol that equations depend on is met in one of them, and has no value that would be put in
its place. -/
theorem kept_of_mem_dependencies {forms : List Form} {id : Nat}
    (hid : id ∈ dependencies c A hs forms) :
    Expression.Kept (c.context.definitions A) c.mode id := by
  obtain ⟨⟨h, f⟩, -, hid⟩ := List.mem_flatMap.1 hid
  obtain ⟨⟨x, hx, rfl⟩, -⟩ := Form.mem_dependencies.1 hid
  exact Expression.kept_of_mem_encounters hx

/-- What has been noted of the equations classifies their variables. -/
theorem Noted.classifies (hc : c.simplifier.KeepsHeads) (hA : A.WellFormed)
    (hΓ : ∀ b ∈ c.context.bodies, Stored b A) (hhs : ∀ h ∈ hs, Stored h A)
    (hx : Noted c A hs x) : x.1.Classifies c A hs := by
  have hvalue : ∀ id ∈ x.1.predefined, ∃ name v, A.symbolName? id = some name ∧
      c.context.value? name = some v := by
    intro id hid
    obtain ⟨v, hv⟩ := Option.isSome_iff_exists.1 (hx.predefined id hid)
    obtain ⟨name, hname, hv⟩ := Option.bind_eq_some_iff.1 hv
    exact ⟨name, v, hname, hv⟩
  have hnone : c.mode = .replaceAll → ∀ id ∈ x.1.unknowns, ∀ name, A.symbolName? id = some name →
      c.context.value? name = none := by
    intro hmode id hid name hname
    rw [hx.unknowns, mem_addNew] at hid
    have hkept := kept_of_mem_dependencies (hid.resolve_left List.not_mem_nil) hmode
    rwa [Expression.value?_definitions, hname, Option.map_eq_none_iff] at hkept
  refine ⟨hx.forms, hx.unknowns, hx.unknowns ▸ nodup_addNew .nil _, hx.length_unknowns, ?_,
    hx.nodup_predefined, hx.length_predefined, hvalue, hnone, ?_⟩
  · intro f hf id hid
    obtain ⟨hlength, hforms⟩ := List.forall₂_iff_zip.1 hx.forms
    rw [← List.map_snd_zip (Nat.le_of_eq hlength.symm)] at hf
    obtain ⟨⟨h, f⟩, hmem, rfl⟩ := List.mem_map.1 hf
    obtain ⟨n, B, r, C, hAB, hB, hrun, rfl⟩ := hforms hmem
    obtain ⟨hsymbols, hin⟩ := canonical_depends_of_grows hc hA hΓ
      (hhs h (List.of_mem_zip hmem).1) hAB hB hrun
    rw [hx.unknowns, mem_addNew]
    exact .inr (List.mem_flatMap.2 ⟨_, hmem, hsymbols ▸ hin id hid⟩)
  · intro hmode id hid hid'
    obtain ⟨name, v, hname, hv⟩ := hvalue id hid'
    cases (hnone hmode id hid name hname).symm.trans hv

/-- Where classification goes on to the end, the catalog has a form for each equation, its unknowns
are the symbols that the equations depend on, in the order in which these are met first, and its
predefined variables are some of those with a value.  The simplifier is to bring in the heads of the
identities only. -/
theorem classify_variables (hc : c.simplifier.KeepsHeads) (hA : A.WellFormed)
    (hΓ : ∀ b ∈ c.context.bodies, Stored b A) (hhs : ∀ h ∈ hs, Stored h A) {k₀ k : Catalog}
    {B : Arena} (hrun : classify c hs (k₀, A) = (.ok (), (k, B))) : k.Classifies c A hs := by
  have hends : Notes c A ([] ++ hs) (noteAll c hs) ({}, A) :=
    noteAll_notes (n := c.moment) hc hA hΓ hhs (.nil hA)
  have hrun' : noteAll c hs ({}, A) = (.ok (), (k, B)) := hrun
  unfold Notes Ends at hends
  rw [hrun'] at hends
  exact (hends rfl).classifies hc hA hΓ hhs

end

end Catalog

/-! ### A symbol that is met and cancels -/

/-- The nodes of `x - x + y - 0`, of `x - a` and of `x - 1`. -/
def cancelledNodes : List Node :=
  [.symbol 0, .opposite ⟨0⟩, .sum [⟨0⟩, ⟨1⟩], .symbol 1, .sum [⟨2⟩, ⟨3⟩], .integer 0, .opposite ⟨5⟩,
    .sum [⟨4⟩, ⟨6⟩], .symbol 2, .opposite ⟨8⟩, .sum [⟨0⟩, ⟨9⟩], .integer 1, .opposite ⟨11⟩,
    .sum [⟨0⟩, ⟨12⟩]]

/-- The arena of these nodes. -/
def cancelledArena : Arena := .ofNodes ["x", "y", "a"] cancelledNodes

/-- The definition `a = 1`. -/
def cancelledContext : Context Handle := ({} : Context Handle).define "a" (.variable ⟨11⟩)

/-- The canonical form of `x - x + y - 0`, where `x` is met first. -/
def cancelledCanonical : Canonical := ⟨.ofFactors 1 [(.symbol 1, 1)], [1]⟩

/-- The canonical form of `x - a`, which is that of `x - 1` where `a` is replaced. -/
def keptCanonical : Mode → Canonical
  | .replaceAll => ⟨.add (.ofFactors 1 [(.symbol 0, 1)]) (.ofRat (-1)), [0]⟩
  | .functionsOnly =>
    ⟨.add (.ofFactors 1 [(.symbol 0, 1)]) (.ofFactors (-1) [(.symbol 2, 1)]), [0, 2]⟩

namespace Build

theorem wellFormed_cancelledArena : cancelledArena.WellFormed :=
  .ofNodes (by decide) (by decide) (by decide)

theorem intern_cancelledArena {n : Node} (hn : n ∈ cancelledNodes) :
    intern n cancelledArena = (.ok ⟨cancelledNodes.idxOf n⟩, cancelledArena) :=
  intern_ofNodes wellFormed_cancelledArena hn

section Runs

open Expression

attribute [local simp] Build.expand expand_eq expandAt_succ expandWith pure_run throw_run
  expandAllWith expandSymbol ExpandM.build bind_run Build.integer sum_pair meet_run
  List.lookup_nil Build.opposite intern_cancelledArena cancelledNodes

theorem expand_cancelledArena (mode : Mode) :
    Build.expand (cancelledContext.definitions cancelledArena) mode
      (cancelledArena.expression ⟨7⟩) cancelledArena =
      (.ok (⟨7⟩, { met := [0, 1] }), cancelledArena) := by
  have hfreex : (cancelledContext.definitions cancelledArena).value? 0 = none := rfl
  have hfreey : (cancelledContext.definitions cancelledArena).value? 1 = none := rfl
  have hagain : ExpandM.meet 0 (cancelledArena, { met := [0] }) =
      (.ok (), (cancelledArena, { met := [0] })) := rfl
  have hmeet : ExpandM.meet 1 (cancelledArena, { met := [0] }) =
      (.ok (), (cancelledArena, { met := [0, 1] })) := rfl
  have hexpression : cancelledArena.expression ⟨7⟩ = .sum [.sum [.sum [.symbol 0,
    .opposite (.symbol 0)], .symbol 1], .opposite (.integer 0)] := rfl
  rw [hexpression]
  simp (disch := decide) [-bind_pure_comp, hfreex, hfreey, hagain, hmeet]

theorem expand_cancelledArena_kept (mode : Mode) :
    Build.expand (cancelledContext.definitions cancelledArena) mode
      (cancelledArena.expression ⟨10⟩) cancelledArena =
      (.ok (if mode = .replaceAll then (⟨13⟩, { met := [0] }) else (⟨10⟩, { met := [0, 2] })),
        cancelledArena) := by
  have hfree : (cancelledContext.definitions cancelledArena).value? 0 = none := rfl
  have hvalue : (cancelledContext.definitions cancelledArena).value? 2 = some (.integer 1) := rfl
  have hmeet : ExpandM.meet 2 (cancelledArena, { met := [0] }) =
      (.ok (), (cancelledArena, { met := [0, 2] })) := rfl
  have hexpression : cancelledArena.expression ⟨10⟩ =
      .sum [.symbol 0, .opposite (.symbol 2)] := rfl
  rw [hexpression]
  cases mode
  · simp (disch := decide) [-bind_pure_comp, hfree, hvalue]
  · simp (disch := decide) [-bind_pure_comp, hmeet]

end Runs

theorem canonical_cancelledArena (mode : Mode) (simplifier : Simplifier) (moment : Nat) :
    canonical ⟨cancelledContext, mode, {}, simplifier, moment⟩ ⟨7⟩ cancelledArena =
      (.ok cancelledCanonical, cancelledArena) := by
  have hform : ((cancelledArena.expression ⟨7⟩).form {}).map (fun f => Canonical.mk f
      ([0, 1].filter fun s => f.mentions s || [].contains s)) = .ok cancelledCanonical := by
    decide +kernel
  exact canonical_of_plain ⟨_, mode, {}, simplifier, moment⟩ (expand_cancelledArena mode) rfl hform

theorem canonical_cancelledArena_kept (mode : Mode) (simplifier : Simplifier) (moment : Nat) :
    canonical ⟨cancelledContext, mode, {}, simplifier, moment⟩ ⟨10⟩ cancelledArena =
      (.ok (keptCanonical mode), cancelledArena) := by
  have hbound : ((cancelledArena.expression ⟨13⟩).form {}).map (fun f => Canonical.mk f
      ([0].filter fun s => f.mentions s || [].contains s)) = .ok (keptCanonical .replaceAll) := by
    decide +kernel
  have hfree : ((cancelledArena.expression ⟨10⟩).form {}).map (fun f => Canonical.mk f
      ([0, 2].filter fun s => f.mentions s || [].contains s)) =
        .ok (keptCanonical .functionsOnly) := by decide +kernel
  have hexpand := expand_cancelledArena_kept mode
  cases mode
  · exact canonical_of_plain ⟨_, .replaceAll, {}, simplifier, moment⟩ hexpand rfl hbound
  · exact canonical_of_plain ⟨_, .functionsOnly, {}, simplifier, moment⟩ hexpand rfl hfree

end Build

namespace Catalog

open Stage

/-- The catalog of the equations `x - x + y = 0` and `x = a`. -/
def cancelledCatalog : Catalog where
  unknowns := [1, 0]
  predefined := [2]
  forms := [cancelledCanonical.form, (keptCanonical .replaceAll).form]

/-- Variables are replaced, and the simplifier follows the identities. -/
def cancelledCanonizer : Canonizer := { context := cancelledContext, simplifier := .saturation }

theorem classify_cancelledArena :
    classify cancelledCanonizer [⟨7⟩, ⟨10⟩] ({}, cancelledArena) =
      (.ok (), (cancelledCatalog, cancelledArena)) := by
  have hfirst : noteEquation cancelledCanonizer ⟨7⟩ ({}, cancelledArena) =
      (.ok (), ({ unknowns := [1], forms := [cancelledCanonical.form] }, cancelledArena)) := by
    rw [noteEquation_of_replaced (c := cancelledCanonizer) rfl (by decide)
      (Build.canonical_cancelledArena .functionsOnly _ _) nofun
      (Build.canonical_cancelledArena .replaceAll _ _)]
    rfl
  have hsecond : noteEquation cancelledCanonizer.later.later ⟨10⟩
      ({ unknowns := [1], forms := [cancelledCanonical.form] }, cancelledArena) =
        (.ok (), (cancelledCatalog, cancelledArena)) := by
    rw [noteEquation_of_replaced (c := cancelledCanonizer.later.later) rfl (by decide)
      (Build.canonical_cancelledArena_kept .functionsOnly _ _) nofun
      (Build.canonical_cancelledArena_kept .replaceAll _ _)]
    rfl
  change (noteEquation cancelledCanonizer ⟨7⟩ >>= fun _ =>
    noteEquation cancelledCanonizer.later.later ⟨10⟩ >>= fun _ => noteAll _ [])
      ({}, cancelledArena) = _
  rw [bind_run, hfirst]
  dsimp only
  rw [bind_run, hsecond]
  rfl

theorem stored_cancelledArena :
    (∀ b ∈ cancelledContext.bodies, Stored b cancelledArena) ∧
      ∀ h ∈ [⟨7⟩, ⟨10⟩], Stored h cancelledArena := by
  constructor
  · intro b hb
    obtain rfl : b = ⟨11⟩ := List.mem_singleton.1 hb
    rfl
  · simp only [List.forall_mem_cons, List.not_mem_nil, false_implies, implies_true, and_true]
    exact ⟨rfl, rfl⟩

/-- The unknowns of `x - x + y = 0` and `x = a` are `y` and `x`, though `x` is met first: the first
equation does not depend on it. -/
theorem exists_unknowns_out_of_order :
    ∃ (c : Canonizer) (A : Arena) (hs : List Handle) (k : Catalog),
    (A.WellFormed ∧ (∀ b ∈ c.context.bodies, Stored b A) ∧ ∀ h ∈ hs, Stored h A) ∧
      classify c hs ({}, A) = (.ok (), (k, A)) ∧
      ¬k.unknowns.Sublist (addNew [] ((hs.flatMap (encounters c A)).map Encounter.id)) := by
  refine ⟨cancelledCanonizer, cancelledArena, [⟨7⟩, ⟨10⟩], cancelledCatalog,
    ⟨Build.wellFormed_cancelledArena, stored_cancelledArena⟩, classify_cancelledArena, ?_⟩
  have hmet : addNew [] (([⟨7⟩, ⟨10⟩].flatMap
      (encounters cancelledCanonizer cancelledArena)).map Encounter.id) = [0, 1] := by
    rfl
  rw [hmet]
  decide

theorem classify_variables_cancelledArena :
    (cancelledCanonizer.simplifier.KeepsHeads ∧ cancelledArena.WellFormed ∧
      (∀ b ∈ cancelledContext.bodies, Stored b cancelledArena) ∧
      (∀ h ∈ [⟨7⟩, ⟨10⟩], Stored h cancelledArena) ∧
      classify cancelledCanonizer [⟨7⟩, ⟨10⟩] ({}, cancelledArena) =
        (.ok (), (cancelledCatalog, cancelledArena))) ∧
      cancelledCatalog.Classifies cancelledCanonizer cancelledArena [⟨7⟩, ⟨10⟩] :=
  have hstored := stored_cancelledArena
  have hkeeps := Simplifier.saturation_keepsHeads {}
  ⟨⟨hkeeps, Build.wellFormed_cancelledArena, hstored.1, hstored.2, classify_cancelledArena⟩,
    classify_variables (c := cancelledCanonizer) hkeeps Build.wellFormed_cancelledArena hstored.1
      hstored.2 classify_cancelledArena⟩

end Catalog

end Resolvent

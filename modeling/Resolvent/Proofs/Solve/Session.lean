import Mathlib.Logic.Relation
import Resolvent.Proofs.Solve.Upkeep
import Resolvent.Solve.Store

/-!
# Sessions

A session is an arena with definitions and a store of equations that refer to it.  Any sequence of
operations may follow: storing nodes, defining and undefining names, adding and removing equations,
solving, searching and tidying up.  None of them changes what a stored side or definition means
(`Session.meaning?_of_run`), although a solve takes nodes away that the solve before it has stored,
and storing a node again may give a handle of one of these.

The invariant is `Session.Sound`: the arena is well-formed, what the equations and definitions refer
to is stored, and the nodes of the last solve begin where a well-formed arena ended from which the
arena has grown.  Tidying up either goes back to that arena, in which the referenced handles are
stored already, or leaves the arena as it is.
-/

namespace Resolvent

/-- An arena with the definitions and the equations that refer to it. -/
structure Session where
  /-- The nodes. -/
  arena : Arena := {}
  /-- The definitions. -/
  context : Context Handle := {}
  /-- The equations, with what the last solve has left behind. -/
  store : EquationStore := {}

/-! ### Operations -/

/-- A way to store an expression over stored operands. -/
inductive Construction where
  /-- A node as it is: a whole number, a double, a constant, a power, an opposite, a quotient, a
  function, a matrix. -/
  | node (n : Node)
  /-- A rational number. -/
  | rational (q : Rat)
  /-- A symbol. -/
  | symbol (name : String)
  /-- A sum. -/
  | sum (terms : List Handle)
  /-- A product. -/
  | product (factors : List Handle)
  /-- A difference. -/
  | difference (a b : Handle)
  /-- A user function. -/
  | call (name : String) (arg : Handle)

namespace Construction

/-- Stores the expression. -/
def build : Construction → Build Handle
  | node n => Build.intern n
  | rational q => Build.rational q
  | symbol name => Build.symbol name
  | sum terms => Build.sum terms
  | product factors => Build.product factors
  | difference a b => Build.difference a b
  | call name arg => Build.call name arg

/-- The operands are stored, and a node names only what has a name. -/
def Admitted (A : Arena) : Construction → Prop
  | node n => A.Admits n
  | rational _ | symbol _ => True
  | sum operands | product operands => ∀ h ∈ operands, Stored h A
  | difference a b => Stored a A ∧ Stored b A
  | call _ arg => Stored arg A

theorem build_yields {A : Arena} (hA : A.WellFormed) {c : Construction} (hc : c.Admitted A) :
    Build.Yields c.build A Stored := by
  cases c with
  | node n => exact Build.intern_yields hA hc
  | rational q => exact Build.rational_yields hA q
  | symbol name => exact Build.symbol_yields hA name
  | sum terms => exact Build.sum_yields hA hc
  | product factors => exact Build.product_yields hA hc
  | difference a b => exact Build.difference_yields hA hc.1 hc.2
  | call name arg => exact Build.call_yields hA name hc

end Construction

/-- What may be done in a session. -/
inductive Operation where
  /-- Stores an expression. -/
  | construct (c : Construction)
  /-- Gives a symbol name a number. -/
  | number (name : String)
  /-- Defines a variable or a function. -/
  | define (name : String) (d : Definition Handle)
  /-- Takes a definition away. -/
  | undefine (name : String)
  /-- Adds an equation. -/
  | add (e : Equation)
  /-- Reads an equation and adds it. -/
  | addText (read : Term.Reader) (text : String)
  /-- Takes the equation out of a slot. -/
  | remove (slot : Nat)
  /-- Takes all equations out. -/
  | removeAll
  /-- Solves the equations. -/
  | solve (options : SolveOptions)
  /-- Sets a bound of the interval for a search. -/
  | setBound (index : Nat) (x : Float)
  /-- Searches the interval for roots. -/
  | search (options : SolveOptions)
  /-- Releases the nodes of the last solve. -/
  | tidy

namespace Session

/-- The operands of the operation are stored. -/
def Admits (S : Session) : Operation → Prop
  | .construct c => c.Admitted S.arena
  | .define _ d => Stored d.body S.arena
  | .add e => Stored e.lhs S.arena ∧ Stored e.rhs S.arena
  | _ => True

/-- The session with a store that an operation has led to; one that has failed changes nothing. -/
def withStore {α : Type} (S : Session) (f : α → EquationStore) : Except StoreError α → Session
  | .ok a => { S with store := f a }
  | .error _ => S

/-- The session behind an operation, whether that succeeds or not. -/
def perform (S : Session) : Operation → Session
  | .construct c => { S with arena := (c.build S.arena).2 }
  | .number name => { S with arena := (Build.internSymbol name S.arena).2 }
  | .define name d => { S with context := S.context.define name d }
  | .undefine name => { S with context := S.context.undefine name }
  | .add e => S.withStore Prod.snd (S.store.add e)
  | .addText read text =>
    let (_, s, A) := S.store.addText S.context read text S.arena
    { S with arena := A, store := s }
  | .remove slot => S.withStore Prod.snd (S.store.remove slot)
  | .removeAll => { S with store := S.store.removeAll }
  | .solve options =>
    let (_, s, A) := S.store.solve S.context options S.arena
    { S with arena := A, store := s }
  | .setBound index x => S.withStore id (S.store.setBound index x)
  | .search options => S.withStore id (S.store.search S.context options S.arena)
  | .tidy =>
    let (s, A) := S.store.tidy S.context S.arena
    { S with arena := A, store := s }

/-- One operation on stored operands. -/
def Step (S T : Session) : Prop := ∃ op, S.Admits op ∧ T = S.perform op

/-- A session that operations lead to from the empty one, in an arena of any size. -/
def Reachable (S : Session) : Prop :=
  ∃ limit, Relation.ReflTransGen Step { arena := Arena.withLimit limit } S

/-- What the equations and the definitions refer to. -/
def handles (S : Session) : List Handle :=
  S.store.equations.flatMap (fun e => [e.lhs, e.rhs]) ++ S.context.bodies

/-! ### The invariant -/

/-- The arena is well-formed, what the equations and definitions refer to is stored, and the nodes of
the last solve begin where a well-formed arena ended that this one has grown from. -/
structure Sound (S : Session) : Prop where
  wellFormed : S.arena.WellFormed
  stored : ∀ h ∈ S.handles, Stored h S.arena
  footprint : ∀ f, S.store.footprint = some f →
    ∃ A : Arena, A.WellFormed ∧ f.start = A.checkpoint ∧ A.GrowsTo S.arena

/-- What a session refers to is stored in another one and means the same there. -/
def AgreesWith (S T : Session) : Prop :=
  ∀ h ∈ S.handles, Stored h T.arena ∧ T.arena.meaning? h = S.arena.meaning? h

theorem sound_withLimit (limit : Nat) : Sound { arena := Arena.withLimit limit } where
  wellFormed := Arena.WellFormed.withLimit limit
  stored h hh := by
    have hnone : handles { arena := Arena.withLimit limit } = [] := by
      simp [handles, EquationStore.equations, Context.bodies]
    rw [hnone] at hh
    exact absurd hh List.not_mem_nil
  footprint f hf := by cases hf

section

variable {S T : Session}

theorem Sound.agreesWith_of_grows (hS : S.Sound) (hgrows : S.arena.GrowsTo T.arena) :
    S.AgreesWith T := fun h hh =>
  ⟨lasting_stored _ _ _ hgrows (hS.stored h hh), hgrows.meaning?_eq hS.wellFormed (hS.stored h hh)⟩

/-- A session stays sound while the arena grows, if the equations and definitions refer to nothing
new but stored handles and the footprint, if it is new, begins where the arena has ended. -/
theorem Sound.of_grows (hS : S.Sound) (hgrows : S.arena.GrowsTo T.arena)
    (hT : T.arena.WellFormed) (hhandles : ∀ h ∈ T.handles, h ∈ S.handles ∨ Stored h T.arena)
    (hfootprint : ∀ f, T.store.footprint = some f →
      S.store.footprint = some f ∨ f.start = S.arena.checkpoint) : T.Sound where
  wellFormed := hT
  stored h hh := (hhandles h hh).elim
    (fun hh => lasting_stored _ _ _ hgrows (hS.stored h hh)) id
  footprint f hf := by
    rcases hfootprint f hf with hf | hf
    · obtain ⟨A, hA, hstart, hAS⟩ := hS.footprint f hf
      exact ⟨A, hA, hstart, hAS.trans hgrows⟩
    · exact ⟨S.arena, hS.wellFormed, hf, hgrows⟩

/-! ### Tidying up -/

/-- Tidying up leaves a well-formed arena from which the one before has grown, and in which what is
referred to is stored. -/
theorem Sound.release (hS : S.Sound) :
    (S.store.release S.context S.arena).WellFormed ∧
      (S.store.release S.context S.arena).GrowsTo S.arena ∧
      ∀ h ∈ S.handles, Stored h (S.store.release S.context S.arena) := by
  unfold EquationStore.release
  split
  · next f hf =>
    split
    · next hrelease =>
      obtain ⟨A, hA, hstart, hgrows⟩ := hS.footprint f hf
      rw [hstart, hgrows.rollback]
      refine ⟨hA, hgrows, fun h hh => Arena.contains_iff.2 ?_⟩
      -- nothing refers to a node behind the start
      have hbeyond := List.any_eq_false.1 hrelease.2 h hh
      rw [hstart] at hbeyond
      exact Nat.lt_of_not_le (of_decide_eq_false (eq_false_of_ne_true hbeyond))
    · exact ⟨hS.wellFormed, .refl _, hS.stored⟩
  · exact ⟨hS.wellFormed, .refl _, hS.stored⟩

theorem Sound.tidy (hS : S.Sound) : (S.perform .tidy).Sound :=
  have ⟨hwellFormed, _, hstored⟩ := hS.release
  ⟨hwellFormed, hstored, nofun⟩

theorem Sound.agreesWith_tidy (hS : S.Sound) : S.AgreesWith (S.perform .tidy) := fun h hh =>
  have ⟨hwellFormed, hgrows, hstored⟩ := hS.release
  ⟨hstored h hh, (hgrows.meaning?_eq hwellFormed (hstored h hh)).symm⟩

/-- What agrees with the tidy session agrees with the session. -/
theorem Sound.agreesWith_of_tidy (hS : S.Sound) (h : (S.perform .tidy).AgreesWith T) :
    S.AgreesWith T := fun k hk =>
  ⟨(h k hk).1, (h k hk).2.trans (hS.agreesWith_tidy k hk).2⟩

/-! ### Equations and definitions -/

theorem mem_handles {h : Handle} :
    h ∈ S.handles ↔
      (∃ e ∈ S.store.equations, h = e.lhs ∨ h = e.rhs) ∨ h ∈ S.context.bodies := by
  simp [handles]

theorem handles_of_equations (hcontext : T.context = S.context)
    (h : ∀ e ∈ T.store.equations,
      e ∈ S.store.equations ∨ Stored e.lhs T.arena ∧ Stored e.rhs T.arena) :
    ∀ k ∈ T.handles, k ∈ S.handles ∨ Stored k T.arena := by
  intro k hk
  rcases mem_handles.1 hk with ⟨e, he, hke⟩ | hk
  · rcases h e he with he | ⟨hlhs, hrhs⟩
    · exact .inl (mem_handles.2 (.inl ⟨e, he, hke⟩))
    · rcases hke with rfl | rfl
      · exact .inr hlhs
      · exact .inr hrhs
  · exact .inl (mem_handles.2 (.inr (hcontext ▸ hk)))

theorem mem_bodies_undefine {Γ : Context Handle} {name : String} {h : Handle}
    (hh : h ∈ (Γ.undefine name).bodies) : h ∈ Γ.bodies := by
  obtain ⟨entry, hentry, rfl⟩ := List.mem_map.1 hh
  exact List.mem_map_of_mem (List.mem_filter.1 hentry).1

theorem mem_bodies_define {Γ : Context Handle} {name : String} {d : Definition Handle} {h : Handle}
    (hh : h ∈ (Γ.define name d).bodies) : h = d.body ∨ h ∈ Γ.bodies :=
  (List.mem_cons.1 hh).imp_right mem_bodies_undefine

end

end Session

namespace EquationStore

variable {s t : EquationStore} {e e' : Equation} {slot : Nat}

theorem mem_equations_iff :
    e ∈ s.equations ↔ ∃ (i : Nat) (h : i < maxVariables), s.slots[i] = some e := by
  simp [equations, List.mem_filterMap, Vector.mem_iff_getElem]

theorem add_eq_ok (h : s.add e = .ok (slot, t)) :
    (∀ e' ∈ t.equations, e' ∈ s.equations ∨ e' = e) ∧ t.footprint = s.footprint := by
  unfold add at h
  split at h
  · cases h
    refine ⟨fun e' he' => ?_, rfl⟩
    obtain ⟨j, hj, he'⟩ := mem_equations_iff.1 he'
    rw [Vector.getElem_set] at he'
    split at he'
    · exact .inr (Option.some.inj he').symm
    · exact .inl (mem_equations_iff.2 ⟨j, hj, he'⟩)
  · cases h

theorem remove_eq_ok (h : s.remove slot = .ok (e, t)) :
    (∀ e' ∈ t.equations, e' ∈ s.equations) ∧ t.footprint = s.footprint := by
  unfold remove at h
  split at h
  · cases h
    refine ⟨fun e' he' => ?_, rfl⟩
    obtain ⟨j, hj, he'⟩ := mem_equations_iff.1 he'
    rw [Vector.getElem_setIfInBounds] at he'
    split at he'
    · cases he'
    · exact mem_equations_iff.2 ⟨j, hj, he'⟩
  · cases h

theorem setBound_eq_ok {index : Nat} {x : Float} (h : s.setBound index x = .ok t) :
    t.slots = s.slots ∧ t.footprint = s.footprint := by
  unfold setBound at h
  split at h
  · cases h
  · split at h
    · cases h
    · split at h
      · cases h
        exact ⟨rfl, rfl⟩
      · cases h

theorem search_eq_ok {Γ : Context Handle} {options : SolveOptions} {A : Arena}
    (h : s.search Γ options A = .ok t) : t.slots = s.slots ∧ t.footprint = s.footprint := by
  unfold search at h
  split at h
  · cases h
  · cases h
    exact ⟨rfl, rfl⟩

end EquationStore

/-! ### Reading equations -/

/-- Reading an equation gives stored sides. -/
theorem Equation.parse_yields {I : Arena → Prop} [Arena.Upheld I] {A : Arena} (hA : I A)
    (read : Term.Reader) (text : String) :
    Yields id I (Equation.parse read text) A fun e B => Stored e.lhs B ∧ Stored e.rhs B := by
  unfold parse
  split
  · refine ((Build.ofText_yields hA read _).adapt _).bind fun lhs B _ hB hlhs => ?_
    refine ((Build.ofText_yields hB read _).adapt _).bind fun rhs C hBC hC hrhs => ?_
    exact .pure hC ⟨lasting_stored _ _ _ hBC hlhs, hrhs⟩
  · exact .throw hA _

/-- No run ends with the error. -/
def Avoids {σ ε α : Type} (m : ExceptT ε (StateM σ) α) (e : ε) : Prop := ∀ x, (m x).1 ≠ .error e

theorem Avoids.bind {σ ε α β : Type} {m : ExceptT ε (StateM σ) α}
    {f : α → ExceptT ε (StateM σ) β} {e : ε} (hm : Avoids m e) (hf : ∀ a, Avoids (f a) e) :
    Avoids (m >>= f) e := by
  intro x
  have hx := hm x
  rw [bind_run]
  rcases hrun : m x with ⟨e' | a, y⟩
  · rw [hrun] at hx
    exact fun heq => hx (congrArg Except.error (Except.error.inj heq))
  · exact hf a y

/-- Reading an equation has nothing to do with the slots. -/
theorem Equation.parse_avoids_full (read : Term.Reader) (text : String) (slots : Nat) :
    Avoids (parse read text) (.full slots) := by
  have hside : ∀ m : BuildT ImportError Handle,
      Avoids (ExceptT.adapt StoreError.unreadable m) (.full slots) := by
    intro m A
    rw [adapt_run]
    cases (m A).1 <;> exact nofun
  unfold parse
  split
  · exact (hside _).bind fun lhs => (hside _).bind fun rhs A => nofun
  · intro A
    exact nofun

/-- The answer is that every slot holds an equation. -/
def saysFull {α : Type} : Except StoreError α → Bool
  | .error (.full _) => true
  | _ => false

namespace EquationStore

variable {s : EquationStore} (Γ : Context Handle) (read : Term.Reader) (text : String) (A : Arena)

/-- Without a free slot no text is read. -/
theorem addText_of_full (h : s.freeSlot?.isNone = true) :
    s.addText Γ read text A = (.error (.full maxVariables), s, A) := by
  rw [addText, if_pos h]

/-- With a free slot the text is read in the tidy arena, and the equation is stored if it is one. -/
theorem addText_of_free (h : ¬ s.freeSlot?.isNone = true) :
    ∃ r t, s.addText Γ read text A = (r, t, (Equation.parse read text (s.release Γ A)).2) ∧
      saysFull r = false ∧ t.footprint = none ∧
      ∀ e ∈ t.equations, e ∈ s.equations ∨ (Equation.parse read text (s.release Γ A)).1 = .ok e := by
  rw [addText, if_neg h]
  dsimp only [tidy]
  have hparse := fun slots => Equation.parse_avoids_full read text slots (s.release Γ A)
  rcases hrun : Equation.parse read text (s.release Γ A) with ⟨x | e, B⟩
  · refine ⟨.error x, s.clear, rfl, ?_, rfl, fun e he => .inl he⟩
    rw [hrun] at hparse
    cases x with
    | full slots => exact absurd rfl (hparse slots)
    | _ => rfl
  · obtain ⟨slot, hslot⟩ : ∃ slot, s.freeSlot? = some slot := by
      rcases hfree : s.freeSlot? with - | slot
      · exact absurd (by rw [hfree]; rfl) h
      · exact ⟨slot, rfl⟩
    have hfree : s.clear.freeSlot? = some slot := hslot
    have hadd : s.clear.add e =
        .ok (slot, { s.clear with slots := s.clear.slots.set slot (some e) }) := by
      rw [add, hfree]
    obtain ⟨hequations, hfootprint⟩ := add_eq_ok hadd
    dsimp only
    rw [hadd]
    refine ⟨_, _, rfl, rfl, hfootprint, fun e' he' => (hequations e' he').imp_right ?_⟩
    rintro rfl
    rfl

end EquationStore

namespace Session

variable {S T : Session}

/-! ### Steps -/

/-- A step of a sound session leads to a sound session that agrees with it. -/
def Safe (S T : Session) : Prop := T.Sound ∧ S.AgreesWith T

theorem Sound.safe_refl (hS : S.Sound) : S.Safe S := ⟨hS, hS.agreesWith_of_grows (.refl _)⟩

theorem Sound.safe_of_grows (hS : S.Sound) (hgrows : S.arena.GrowsTo T.arena)
    (hT : T.arena.WellFormed) (hhandles : ∀ h ∈ T.handles, h ∈ S.handles ∨ Stored h T.arena)
    (hfootprint : T.store.footprint = S.store.footprint) : S.Safe T :=
  ⟨hS.of_grows hgrows hT hhandles fun _ hf => .inl (hfootprint ▸ hf),
    hS.agreesWith_of_grows hgrows⟩

theorem Sound.safe_withStore (hS : S.Sound) {α : Type} {f : α → EquationStore}
    {r : Except StoreError α}
    (h : ∀ a, r = .ok a → (∀ e ∈ (f a).equations,
      e ∈ S.store.equations ∨ Stored e.lhs S.arena ∧ Stored e.rhs S.arena) ∧
        (f a).footprint = S.store.footprint) : S.Safe (S.withStore f r) := by
  cases r with
  | error x => exact hS.safe_refl
  | ok a =>
    obtain ⟨hequations, hfootprint⟩ := h a rfl
    exact hS.safe_of_grows (.refl _) hS.wellFormed (handles_of_equations rfl hequations) hfootprint

theorem Sound.safe_of_tidy (hS : S.Sound) (h : (S.perform .tidy).Safe T) : S.Safe T :=
  ⟨h.1, hS.agreesWith_of_tidy h.2⟩

/-- An equation that is read is stored behind the nodes of a tidy arena. -/
theorem Sound.safe_addText (hS : S.Sound) (read : Term.Reader) (text : String) :
    S.Safe (S.perform (.addText read text)) := by
  dsimp only [perform]
  by_cases hfull : S.store.freeSlot?.isNone = true
  · rw [EquationStore.addText_of_full _ _ _ _ hfull]
    exact hS.safe_refl
  · obtain ⟨r, t, hadd, -, hfootprint, hequations⟩ :=
      EquationStore.addText_of_free S.context read text S.arena hfull
    obtain ⟨hgrows, hkeeps, hresult⟩ :
        Build.Yields (Equation.parse read text) (S.store.release S.context S.arena) _ :=
      Equation.parse_yields hS.tidy.wellFormed read text
    rw [hadd]
    refine hS.safe_of_tidy (hS.tidy.safe_of_grows hgrows hkeeps ?_ hfootprint)
    exact handles_of_equations rfl fun e he => (hequations e he).imp_right (hresult e)

/-- A solve stores nodes behind those of a tidy arena and notes where they begin. -/
theorem Sound.safe_solve (hS : S.Sound) (options : SolveOptions) :
    S.Safe (S.perform (.solve options)) := by
  refine hS.safe_of_tidy ?_
  obtain ⟨i, -, hsolve⟩ := S.store.exists_solve_eq_leave S.context options S.arena
  have htidy := hS.tidy
  have hsides : EquationStore.SidesStored { slots := S.store.slots } (S.perform .tidy).arena :=
    fun e he => ⟨htidy.stored _ (mem_handles.2 (.inl ⟨e, he, .inl rfl⟩)),
      htidy.stored _ (mem_handles.2 (.inl ⟨e, he, .inr rfl⟩))⟩
  dsimp only [perform]
  rw [hsolve]
  rcases hR : Outcome.ofSolve S.context options S.store.slots
    (S.store.tidy S.context S.arena).2 with x | P
  · exact htidy.safe_of_grows (.refl _) htidy.wellFormed (fun h hh => .inl hh) rfl
  · obtain ⟨n, mode, hP⟩ := EquationStore.exists_mode_of_ofSolve hR
    have hgrows := EquationStore.grows_of_ofPass hP
    refine ⟨htidy.of_grows hgrows (EquationStore.wellFormed_of_ofPass htidy.wellFormed hsides hP)
      (fun h hh => .inl hh) fun f hf => .inr ?_, htidy.agreesWith_of_grows hgrows⟩
    obtain rfl := Option.some.inj hf
    rfl

theorem Sound.safe_perform (hS : S.Sound) {op : Operation} (hop : S.Admits op) :
    S.Safe (S.perform op) := by
  cases op with
  | construct c =>
    have hrun := c.build_yields hS.wellFormed hop
    exact hS.safe_of_grows hrun.grows hrun.keeps (fun h hh => .inl hh) rfl
  | number name =>
    have hrun := Build.internSymbol_yields hS.wellFormed name
    exact hS.safe_of_grows hrun.grows hrun.keeps (fun h hh => .inl hh) rfl
  | define name d =>
    refine hS.safe_of_grows (.refl _) hS.wellFormed (fun h hh => ?_) rfl
    rcases mem_handles.1 hh with hh | hh
    · exact .inl (mem_handles.2 (.inl hh))
    · rcases mem_bodies_define hh with rfl | hh
      · exact .inr hop
      · exact .inl (mem_handles.2 (.inr hh))
  | undefine name =>
    refine hS.safe_of_grows (.refl _) hS.wellFormed (fun h hh => .inl ?_) rfl
    exact mem_handles.2 ((mem_handles.1 hh).imp_right mem_bodies_undefine)
  | add e =>
    refine hS.safe_withStore fun a ha => ?_
    obtain ⟨hequations, hfootprint⟩ := EquationStore.add_eq_ok ha
    refine ⟨fun e' he' => (hequations e' he').imp_right ?_, hfootprint⟩
    rintro rfl
    exact hop
  | addText read text => exact hS.safe_addText read text
  | remove slot =>
    refine hS.safe_withStore fun a ha => ?_
    obtain ⟨hequations, hfootprint⟩ := EquationStore.remove_eq_ok ha
    exact ⟨fun e he => .inl (hequations e he), hfootprint⟩
  | removeAll =>
    refine hS.safe_of_grows (.refl _) hS.wellFormed (handles_of_equations rfl fun e he => ?_) rfl
    obtain ⟨i, hi, he⟩ := EquationStore.mem_equations_iff.1 he
    simp [perform, EquationStore.removeAll] at he
  | solve options => exact hS.safe_solve options
  | setBound index x =>
    refine hS.safe_withStore fun t ht => ?_
    obtain ⟨hslots, hfootprint⟩ := EquationStore.setBound_eq_ok ht
    refine ⟨fun e he => .inl ?_, hfootprint⟩
    rwa [id_eq, EquationStore.mem_equations_iff, hslots, ← EquationStore.mem_equations_iff] at he
  | search options =>
    refine hS.safe_withStore fun t ht => ?_
    obtain ⟨hslots, hfootprint⟩ := EquationStore.search_eq_ok ht
    refine ⟨fun e he => .inl ?_, hfootprint⟩
    rwa [id_eq, EquationStore.mem_equations_iff, hslots, ← EquationStore.mem_equations_iff] at he
  | tidy => exact ⟨hS.tidy, hS.agreesWith_tidy⟩

/-! ### Runs -/

theorem Reachable.sound (hS : S.Reachable) : S.Sound := by
  obtain ⟨limit, hrun⟩ := hS
  induction hrun with
  | refl => exact sound_withLimit limit
  | tail _ hstep ih =>
    obtain ⟨op, hop, rfl⟩ := hstep
    exact (ih.safe_perform hop).1

/-- One operation in a session that refers to a handle. -/
def StepKeeping (h : Handle) (S T : Session) : Prop := S.Step T ∧ h ∈ T.handles

/-- What an equation or a definition refers to is stored, and means what it has meant before as long
as some equation or definition refers to it. -/
theorem meaning?_of_run {h : Handle} (hS : S.Reachable) (hh : h ∈ S.handles)
    (hrun : Relation.ReflTransGen (StepKeeping h) S T) :
    T.arena.contains h = true ∧
      ∃ m, S.arena.meaning? h = some m ∧ T.arena.meaning? h = some m := by
  have hsound := hS.sound
  obtain ⟨m, hm⟩ := hsound.wellFormed.exists_meaning? (hsound.stored h hh)
  have hmeaning : T.Sound ∧ h ∈ T.handles ∧ T.arena.meaning? h = some m := by
    induction hrun with
    | refl => exact ⟨hsound, hh, hm⟩
    | tail _ hstep ih =>
      obtain ⟨hsound, hh, hm⟩ := ih
      obtain ⟨⟨op, hop, rfl⟩, hkept⟩ := hstep
      obtain ⟨hnext, hagrees⟩ := hsound.safe_perform hop
      exact ⟨hnext, hkept, (hagrees h hh).2.trans hm⟩
  exact ⟨hmeaning.1.stored h hmeaning.2.1, m, hm, hmeaning.2.2⟩

/-! ### An equation behind a solve -/

theorem handles_solve (S : Session) (options : SolveOptions) :
    (S.perform (.solve options)).handles = S.handles := by
  obtain ⟨i, -, hsolve⟩ := S.store.exists_solve_eq_leave S.context options S.arena
  dsimp only [perform]
  rw [hsolve]
  cases Outcome.ofSolve S.context options S.store.slots (S.store.tidy S.context S.arena).2 <;> rfl

/-- An arena that has room for a hundred nodes, with a symbol and the number zero. -/
def symbolAndZero : Session :=
  (perform { arena := Arena.withLimit 100 } (.construct (.symbol "x"))).perform
    (.construct (.node (.integer 0)))

/-- The equation `x = 0`. -/
def symbolIsZero : Session := symbolAndZero.perform (.add ⟨⟨0⟩, ⟨1⟩⟩)

theorem size_symbolAndZero : symbolAndZero.arena.nodes.size = 2 := by
  simp [symbolAndZero, perform, Construction.build, Build.symbol, bind_run, Build.intern_run,
    Build.internSymbol_run, Arena.withLimit, Arena.maxLimit]

theorem reachable_symbolIsZero : symbolIsZero.Reachable := by
  refine ⟨100, .tail (.tail (.single ⟨.construct (.symbol "x"), trivial, rfl⟩)
    ⟨.construct (.node (.integer 0)), ⟨nofun, nofun⟩, rfl⟩) ⟨.add ⟨⟨0⟩, ⟨1⟩⟩, ?_, rfl⟩⟩
  change Stored ⟨0⟩ symbolAndZero.arena ∧ Stored ⟨1⟩ symbolAndZero.arena
  simp [Stored, Arena.contains_iff, size_symbolAndZero]

theorem handles_symbolIsZero : symbolIsZero.handles = [⟨0⟩, ⟨1⟩] := by decide

/-- A solve and the release of its nodes leave the symbol of `x = 0` as it was. -/
theorem meaning?_of_run_symbolIsZero :
    let T := (symbolIsZero.perform (.solve { simplifier := .saturation })).perform .tidy
    symbolIsZero.Reachable ∧ ⟨0⟩ ∈ symbolIsZero.handles ∧
      Relation.ReflTransGen (StepKeeping ⟨0⟩) symbolIsZero T ∧
      ∃ m, symbolIsZero.arena.meaning? ⟨0⟩ = some m ∧ T.arena.meaning? ⟨0⟩ = some m := by
  intro T
  have hh : ⟨0⟩ ∈ symbolIsZero.handles := by simp [handles_symbolIsZero]
  have hsolve : ⟨0⟩ ∈ (symbolIsZero.perform (.solve { simplifier := .saturation })).handles := by
    rwa [handles_solve]
  have hrun : Relation.ReflTransGen (StepKeeping ⟨0⟩) symbolIsZero T :=
    .tail (.single ⟨⟨.solve { simplifier := .saturation }, trivial, rfl⟩, hsolve⟩)
      ⟨⟨.tidy, trivial, rfl⟩, hsolve⟩
  exact ⟨reachable_symbolIsZero, hh, hrun, (meaning?_of_run reachable_symbolIsZero hh hrun).2⟩

end Session

end Resolvent

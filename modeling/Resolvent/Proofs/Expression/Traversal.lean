import Resolvent.Proofs.Expression.Layered
import Resolvent.Proofs.Expression.Unfolded

/-!
# Expansion as a traversal of the arena

`Expression.expand` is a recursion on the expression that a handle stands for.
`Expression.traverse` follows the handles of an arena instead, while the arena grows: from the node
of a handle to those of its operands, and from a symbol or a call to what its definition stores.
Nothing in the arena keeps such a traversal from going on for ever, so it is given a number of
steps.

In a layered arena that number need not be great (`Expression.traverse_agrees`): the operands of a
node come before it, definitions were stored before the expansion began, and they are nested at most
32 deep, so that the place of the node, counted from the end of the arena once more for each level
of nesting, decreases.  The traversal then does what the recursion on expressions does.

In a layered arena, whatever the definitions refer to, the expansion of a stored expression comes to
an end: following handles takes no more levels than 33 times the arena has nodes
(`Expression.expand_total`).  If it succeeds, calls, matrices and the symbols that the mode replaces
are gone and the symbols that are left are recorded; and it fails where the expression leads to a
circular definition.
-/

namespace Resolvent

section Steps

/-- Stores a node of the same kind over other operands. -/
def Node.construct : Node → List Handle → Build Handle
  | sum _, hs => Build.sum hs
  | product _, hs => Build.product hs
  | power _ _, [a, b] => Build.power a b
  | opposite _, [a] => Build.opposite a
  | quotient _ _, [a, b] => Build.quotient a b
  | apply code _, hs => Build.applyCode code hs
  | _, _ => Build.undefined

/-- Computations that expand handles and stop without an error when they run out of steps. -/
abbrev TraverseM := ExceptT (Option CanonicalError) (StateM (Arena × Encounters))

/-- A part of an expansion, as a part of a traversal. -/
def TraverseM.lift {α : Type} (m : ExpandM α) : TraverseM α := ExceptT.adapt some m

/-- Goes one level deeper into definitions, if there is one left. -/
def TraverseM.enter (depth : Nat) (f : Nat → TraverseM Handle) : TraverseM Handle :=
  match depth with
  | 0 => throw (some .undefined)
  | depth + 1 => f depth

namespace Expression

section Traverse

variable (Γ : Context Handle) (mode : Mode) (go : Nat → Parameters → Handle → TraverseM Handle)
  (depth : Nat) (scope : Parameters)

/-- Expands the node of a symbol. -/
def traverseSymbol (h : Handle) (id : Nat) : TraverseM Handle :=
  match scope.lookup id with
  | some k => return k
  | none => do
    let (A, _) ← getThe (Arena × Encounters)
    match if mode = .replaceAll then (A.symbolName? id).bind Γ.value? else none with
    | some value => TraverseM.enter depth fun depth => go depth scope value
    | none => do
      TraverseM.lift (ExpandM.meet id)
      return h

/-- Expands the node of a call. -/
def traverseCall (name : Nat) (arg : Handle) : TraverseM Handle := do
  let argument ← go depth scope arg
  TraverseM.lift (ExpandM.dependOn argument)
  let (A, _) ← getThe (Arena × Encounters)
  match (A.symbolName? name).bind Γ.function? with
  | none => throw (some .undefined)
  | some (parameter, body) =>
    let scope := (A.symbolId? parameter).toList.map (·, argument) ++ scope
    TraverseM.enter depth fun depth => go depth scope body

/-- Expands a node. -/
def traverseNode (h : Handle) : Node → TraverseM Handle
  | .symbol id => traverseSymbol Γ mode go depth scope h id
  | .call name arg => traverseCall Γ go depth scope name arg
  | .matrix _ _ _ => throw (some .matrix)
  | n =>
    if n.isAtom then return h
    else do
      let hs ← n.children.mapM (go depth scope)
      TraverseM.lift (ExpandM.build (n.construct hs))

end Traverse

/-- Expands the expression of a handle in a number of steps, with definitions nested at most `depth`
deep. -/
def traverse (Γ : Context Handle) (mode : Mode) : Nat → Nat → Parameters → Handle → TraverseM Handle
  | 0, _, _, _ => throw none
  | steps + 1, depth, scope, h => do
    let (A, _) ← getThe (Arena × Encounters)
    match A.node? h with
    | none => throw (some .undefined)
    | some n => traverseNode Γ mode (traverse Γ mode steps) depth scope h n

/-! ### Steps -/

section Lift

variable {α β : Type} {x y : Arena × Encounters}

theorem lift_bind_run (m : ExpandM α) (f : α → ExpandM β) (x : Arena × Encounters) :
    TraverseM.lift (m >>= f) x = (TraverseM.lift m >>= fun a => TraverseM.lift (f a)) x := by
  unfold TraverseM.lift
  rw [adapt_run, bind_run, bind_run, adapt_run]
  rcases m x with ⟨e | a, y⟩ <;> rfl

theorem lift_run_eq_ok_iff {m : ExpandM α} {a : α} :
    TraverseM.lift m x = (.ok a, y) ↔ m x = (.ok a, y) := by
  unfold TraverseM.lift
  rw [adapt_run]
  rcases m x with ⟨e | b, z⟩
  · exact ⟨nofun, nofun⟩
  · constructor <;> (rintro ⟨⟩; rfl)

/-- Two sequences do the same if their first parts do and the second parts do behind these. -/
theorem bind_run_congr {m m' : TraverseM α} {f f' : α → TraverseM β} (hm : m x = m' x)
    (hf : ∀ a y, m' x = (.ok a, y) → f a y = f' a y) : (m >>= f) x = (m' >>= f') x := by
  rw [bind_run, bind_run, hm]
  rcases hrun : m' x with ⟨e | a, y⟩
  · rfl
  · exact hf a y hrun

end Lift

/-- Expands what is nested in definitions. -/
def nestedAt (Δ : Definitions) (mode : Mode) : Nat → Parameters → Expression → ExpandM Handle
  | 0 => fun _ _ => throw .undefined
  | depth + 1 => expandAt Δ mode depth

theorem expandAt_eq (Δ : Definitions) (mode : Mode) (depth : Nat) :
    expandAt Δ mode depth = expandWith Δ mode (nestedAt Δ mode depth) := by
  cases depth <;> rfl

/-! ### Nodes and definitions -/

section Nodes

variable {A : Arena} {h : Handle} {n : Node} {Γ : Context Handle}

theorem node_of_layered (hA : A.Layered) (hn : A.node? h = some n) :
    A.expression? h = Arena.assemble? A.expression? n := by
  obtain ⟨names, hnames⟩ := hA.exists_wellFormed
  have hread : Arena.expression? { A with symbols := names } = A.expression? :=
    funext fun k => Arena.Renamed.expression?_eq ⟨rfl, rfl⟩ k
  have h := hnames.expression?_eq (h := h) hn
  rwa [hread] at h

theorem exists_expression_of_layered (hA : A.Layered) (hn : A.node? h = some n) :
    Arena.assemble? A.expression? n = some (A.expression h) := by
  obtain ⟨names, hnames⟩ := hA.exists_wellFormed
  obtain ⟨e, he⟩ := hnames.exists_expression? (h := h) (Arena.contains_of_node? hn)
  rw [Arena.Renamed.expression?_eq ⟨rfl, rfl⟩] at he
  rw [← node_of_layered hA hn, he, Arena.expression, he, Option.getD_some]

/-- The expression of a node has the expressions of its operands. -/
theorem operands_of_layered (hA : A.Layered) (hn : A.node? h = some n) :
    (A.expression h).operands = n.children.map A.expression := by
  have hchildren := (Arena.children_of_assemble? (exists_expression_of_layered hA hn)).1
  have hmap := congrArg (List.map (Option.getD · undefined)) (mapM_eq_some_iff.1 hchildren)
  rw [List.map_map, List.map_map] at hmap
  exact (hmap.trans (List.map_id _)).symm

theorem mem_bodies_of_value? {name : String} {v : Handle} (h : Γ.value? name = some v) :
    v ∈ Γ.bodies := by
  unfold Context.value? at h
  split at h
  · next hlookup =>
    cases h
    obtain ⟨l₁, l₂, heq, -⟩ := List.lookup_eq_some_iff.1 hlookup
    exact List.mem_map.2 ⟨(name, .variable v), by simp [heq], rfl⟩
  · cases h

theorem mem_bodies_of_function? {name parameter : String} {body : Handle}
    (h : Γ.function? name = some (parameter, body)) : body ∈ Γ.bodies := by
  unfold Context.function? at h
  split at h
  · next hlookup =>
    cases h
    obtain ⟨l₁, l₂, heq, -⟩ := List.lookup_eq_some_iff.1 hlookup
    exact List.mem_map.2 ⟨(name, .function parameter body), by simp [heq], rfl⟩
  · cases h

end Nodes

/-! ### Traversals -/

section Traversal

variable {A : Arena} {Γ : Context Handle} {mode : Mode} {names : Symbols} {arguments : Arguments}
  {scope : Parameters} {x y : Arena × Encounters} {depth : Nat}
  {go : Nat → Parameters → Handle → TraverseM Handle}

/-- An expansion that began in the first arena has come to the second one. -/
structure Underway (names : Symbols) (Γ : Context Handle) (A : Arena) (arguments : Arguments)
    (scope : Parameters) (B : Arena) : Prop where
  grounded : Grounded names (Γ.definitions A) arguments scope B
  grows : A.GrowsTo B
  symbols : B.symbols = A.symbols

theorem Underway.after {e : Expression} {k : Handle} (hx : Underway names Γ A arguments scope x.1)
    (he : e.IdentifiersIn names.IsNumber)
    (hrun : expandAt (Γ.definitions A) mode depth scope e x = (.ok k, y)) :
    Underway names Γ A arguments scope y.1 ∧ ∃ t, Denotes t k y.1 := by
  obtain ⟨hgrounded, hsymbols, hxy, t, -, hk⟩ := hx.grounded.expandAt he hrun
  exact ⟨⟨hgrounded, hx.grows.trans hxy, hsymbols.trans hx.symbols⟩, t, hk⟩

/-- The traversal of a handle does what the expansion of its expression does. -/
def Agrees (names : Symbols) (Γ : Context Handle) (mode : Mode) (A : Arena)
    (expand : Parameters → Handle → TraverseM Handle) (depth : Nat) (h : Handle) : Prop :=
  ∀ arguments scope x, Underway names Γ A arguments scope x.1 →
    expand scope h x =
      TraverseM.lift (expandAt (Γ.definitions A) mode depth scope (A.expression h)) x

theorem mapM_traverse_run (hexpression : ∀ h, (A.expression h).IdentifiersIn names.IsNumber)
    {hs : List Handle} (hhs : ∀ h ∈ hs, Agrees names Γ mode A (go depth) depth h)
    (hx : Underway names Γ A arguments scope x.1) :
    hs.mapM (go depth scope) x =
      TraverseM.lift (expandAllWith (Γ.definitions A) mode (nestedAt (Γ.definitions A) mode depth)
        scope (hs.map A.expression)) x := by
  induction hs generalizing x with
  | nil => rfl
  | cons h hs ih =>
    have ⟨hh, hhs⟩ := List.forall_mem_cons.1 hhs
    rw [List.mapM_cons, List.map_cons, expandAllWith, lift_bind_run, ← expandAt_eq]
    refine bind_run_congr (hh arguments scope x hx) fun k y hrun => ?_
    have hy := (hx.after (hexpression h) (lift_run_eq_ok_iff.1 hrun)).1
    rw [lift_bind_run]
    exact bind_run_congr (ih hhs hy) fun _ _ _ => rfl

/-- What is needed of a definition is traversed one level deeper. -/
theorem enter_run {v : Handle}
    (hv : ∀ depth', depth = depth' + 1 → Agrees names Γ mode A (go depth') depth' v)
    (hx : Underway names Γ A arguments scope x.1) :
    TraverseM.enter depth (fun depth => go depth scope v) x =
      TraverseM.lift (nestedAt (Γ.definitions A) mode depth scope (A.expression v)) x := by
  cases depth with
  | zero => rfl
  | succ depth => exact hv depth rfl arguments scope x hx

theorem intern_run_of_node? {h : Handle} {n : Node} (hx : Underway names Γ A arguments scope x.1)
    (hnode : A.node? h = some n) : Build.intern n x.1 = (.ok h, x.1) := by
  have hindex : x.1.index[n]? = some h :=
    hx.grounded.wellFormed.index_node h n (hx.grows.node? hnode)
  rw [Build.intern_run, hindex]

theorem traverseSymbol_run {h : Handle} {id : Nat}
    (hΓ : ∀ v ∈ Γ.bodies, ∀ depth', depth = depth' + 1 → Agrees names Γ mode A (go depth') depth' v)
    (hx : Underway names Γ A arguments scope x.1) (hnode : A.node? h = some (.symbol id)) :
    traverseSymbol Γ mode go depth scope h id x =
      TraverseM.lift (expandSymbol (Γ.definitions A) mode
        (nestedAt (Γ.definitions A) mode depth) scope id) x := by
  unfold traverseSymbol expandSymbol
  rcases scope.lookup id with - | k
  · -- the symbol stays where the mode keeps it and where it has no value
    have hkept : (TraverseM.lift (ExpandM.meet id) >>= fun _ => pure h : TraverseM Handle) x =
        TraverseM.lift (ExpandM.meet id >>= fun _ =>
          ExpandM.build (Build.intern (.symbol id))) x := by
      rw [lift_bind_run]
      refine bind_run_congr rfl fun a y hrun => ?_
      cases lift_run_eq_ok_iff.1 hrun
      have hintern := intern_run_of_node? hx hnode
      unfold TraverseM.lift ExpandM.build
      rw [adapt_run]
      dsimp only
      rw [hintern]
      rfl
    have hnames : x.1.symbolName? id = A.symbolName? id := congrArg (·.name? id) hx.symbols
    rw [value?_definitions]
    dsimp only
    rw [bind_run, getThe_run]
    dsimp only
    rw [hnames]
    by_cases hmode : mode = .replaceAll
    · rw [if_pos hmode, if_pos hmode]
      rcases hv : (A.symbolName? id).bind Γ.value? with - | v
      · exact hkept
      · obtain ⟨name, -, hv⟩ := Option.bind_eq_some_iff.1 hv
        exact enter_run (hΓ v (mem_bodies_of_value? hv)) hx
    · rw [if_neg hmode, if_neg hmode]
      exact hkept
  · rfl

theorem traverseCall_run {name : Nat} {arg : Handle}
    (hexpression : ∀ h, (A.expression h).IdentifiersIn names.IsNumber)
    (hΓ : ∀ v ∈ Γ.bodies, ∀ depth', depth = depth' + 1 → Agrees names Γ mode A (go depth') depth' v)
    (harg : Agrees names Γ mode A (go depth) depth arg)
    (hx : Underway names Γ A arguments scope x.1) :
    traverseCall Γ go depth scope name arg x =
      TraverseM.lift (expandWith (Γ.definitions A) mode (nestedAt (Γ.definitions A) mode depth) scope
        (call name (A.expression arg))) x := by
  unfold traverseCall
  rw [expandWith, lift_bind_run, ← expandAt_eq]
  refine bind_run_congr (harg arguments scope x hx) fun argument y hrun => ?_
  obtain ⟨hy, t, ht⟩ := hx.after (hexpression arg) (lift_run_eq_ok_iff.1 hrun)
  unfold expandCall
  rw [lift_bind_run]
  refine bind_run_congr rfl fun _ z hrun => ?_
  cases lift_run_eq_ok_iff.1 hrun
  -- recording symbols leaves the arena as it is
  have hnames : ∀ id, y.1.symbolName? id = A.symbolName? id := fun id =>
    congrArg (·.name? id) hy.symbols
  have hids : ∀ s, y.1.symbolId? s = A.symbolId? s := fun s => congrArg (·.id? s) hy.symbols
  rw [bind_run, getThe_run, function?_definitions]
  dsimp only
  rw [hnames]
  rcases hbody : (A.symbolName? name).bind Γ.function? with - | ⟨parameter, body⟩
  · rfl
  · obtain ⟨_, -, hbody⟩ := Option.bind_eq_some_iff.1 hbody
    have hagrees := hΓ body (mem_bodies_of_function? hbody)
    dsimp only [Option.map_some]
    rw [hids]
    rcases A.symbolId? parameter with - | parameter
    · exact enter_run hagrees hy
    · have hcalled : Underway names Γ A ((parameter, t) :: arguments)
          ((parameter, argument) :: scope) y.1 :=
        ⟨⟨hy.grounded.wellFormed, hy.grounded.definitions, .cons ⟨rfl, ht⟩ hy.grounded.denotes⟩,
          hy.grows, hy.symbols⟩
      exact enter_run hagrees hcalled

/-- The node of a regular expression is an atom or has operands, and what is stored over these is the
same, be it by the node or by the expression. -/
theorem traverseNode_of_isRegular {read : Handle → Option Expression} {n : Node} {e : Expression}
    (h : Arena.assemble? read n = some e) (he : e.isRegular = true) (k : Handle)
    (Γ : Context Handle) (mode : Mode) (go : Nat → Parameters → Handle → TraverseM Handle)
    (depth : Nat) (scope : Parameters) :
    (n.isAtom = true ∧ traverseNode Γ mode go depth scope k n = pure k ∧
        e.construct [] = Build.intern n) ∨
      traverseNode Γ mode go depth scope k n = n.children.mapM (go depth scope) >>= fun hs =>
        TraverseM.lift (ExpandM.build (e.construct hs)) := by
  cases n with
  | symbol id =>
    cases h
    cases he
  | call | matrix =>
    obtain ⟨_, -, rfl⟩ := Option.map_eq_some_iff.1 h
    cases he
  | sum args | product args | apply code args =>
    obtain ⟨es, -, rfl⟩ := Option.map_eq_some_iff.1 h
    exact .inr rfl
  | opposite a =>
    obtain ⟨x, -, rfl⟩ := Option.map_eq_some_iff.1 h
    exact .inr (bind_congr fun hs => by rcases hs with _ | ⟨a, _ | ⟨b, hs⟩⟩ <;> rfl)
  | power a b | quotient a b =>
    simp only [Arena.assemble?, Option.bind_eq_bind, Option.bind_eq_some_iff, Option.pure_def,
      Option.some.injEq] at h
    obtain ⟨x, -, y, -, rfl⟩ := h
    exact .inr (bind_congr fun hs => by rcases hs with _ | ⟨a, _ | ⟨b, _ | ⟨c, hs⟩⟩⟩ <;> rfl)
  | _ =>
    cases h
    exact .inl ⟨rfl, rfl, rfl⟩

/-- In a layered arena, the traversal does what expansion does, provided that there are steps for
the place of the handle and for the whole arena on each level of nesting. -/
theorem traverse_agrees (hA : A.Layered) (hΓ : ∀ b ∈ Γ.bodies, Stored b A)
    (hexpression : ∀ h, (A.expression h).IdentifiersIn names.IsNumber) (steps : Nat) {h : Handle}
    (hh : Stored h A) (hsteps : depth * A.size + h.index < steps) :
    Agrees names Γ mode A (traverse Γ mode steps depth) depth h := by
  induction steps generalizing depth h with
  | zero => exact absurd hsteps (Nat.not_lt_zero _)
  | succ steps ih =>
    intro arguments scope x hx
    obtain ⟨n, hn⟩ := Arena.exists_node?_of_contains hh
    have hassemble := exists_expression_of_layered hA hn
    -- operands have a smaller place, and definitions one at most as great on a deeper level
    have hchildren : ∀ c ∈ n.children, Agrees names Γ mode A (traverse Γ mode steps depth) depth c := by
      intro c hc
      have hlt := hA.operand_lt h n hn c hc
      have hstored := Arena.contains_iff.1 hh
      exact ih (Arena.contains_iff.2 (Nat.lt_trans hlt hstored)) (by omega)
    have hbodies : ∀ v ∈ Γ.bodies, ∀ depth', depth = depth' + 1 →
        Agrees names Γ mode A (traverse Γ mode steps depth') depth' v := by
      rintro v hv depth' rfl
      have hstored := Arena.contains_iff.1 (hΓ v hv)
      refine ih (hΓ v hv) ?_
      rw [Nat.succ_mul] at hsteps
      exact Nat.lt_of_lt_of_le (Nat.add_lt_add_left hstored _) (by unfold Arena.size at *; omega)
    rw [traverse, bind_run, getThe_run]
    dsimp only
    rw [hx.grows.node? hn, expandAt_eq]
    dsimp only
    by_cases hregular : (A.expression h).isRegular = true
    · rw [expandWith_of_isRegular hregular, operands_of_layered hA hn, lift_bind_run]
      have hcases := traverseNode_of_isRegular hassemble hregular h Γ mode (traverse Γ mode steps)
        depth scope
      rcases hcases with ⟨hatom, hnode, hconstruct⟩ | hnode
      · rw [hnode, Node.children_of_isAtom hatom]
        have hintern := intern_run_of_node? hx hn
        change _ = TraverseM.lift (ExpandM.build ((A.expression h).construct [])) x
        unfold TraverseM.lift ExpandM.build
        rw [adapt_run, hconstruct]
        dsimp only
        rw [hintern]
        rfl
      · rw [hnode]
        exact bind_run_congr (mapM_traverse_run hexpression hchildren hx) fun _ _ _ => rfl
    · cases n with
      | symbol id =>
        rw [← Option.some.inj hassemble]
        exact traverseSymbol_run hbodies hx hn
      | call name arg =>
        obtain ⟨t, ht, heq⟩ := Option.map_eq_some_iff.1 hassemble
        have harg : A.expression arg = t := by rw [Arena.expression, ht, Option.getD_some]
        rw [← heq, ← harg]
        exact traverseCall_run hexpression hbodies (hchildren arg List.mem_cons_self) hx
      | matrix rows columns args =>
        obtain ⟨es, -, heq⟩ := Option.map_eq_some_iff.1 hassemble
        rw [← heq]
        rfl
      | sum | product | apply | opposite =>
        obtain ⟨_, -, heq⟩ := Option.map_eq_some_iff.1 hassemble
        exact absurd (heq ▸ rfl) hregular
      | power | quotient =>
        simp only [Arena.assemble?, Option.bind_eq_bind, Option.bind_eq_some_iff, Option.pure_def,
          Option.some.injEq] at hassemble
        obtain ⟨x, -, y, -, heq⟩ := hassemble
        exact absurd (heq ▸ rfl) hregular
      | _ => exact absurd (Option.some.inj hassemble ▸ rfl) hregular

end Traversal

end Expression

end Steps

/-! ### What expansion comes to -/

namespace Expression

variable {A : Arena} {Γ : Context Handle} {h : Handle}

/-- In a layered arena, expansion terminates, it leaves no calls, no matrices and no symbols that the
mode replaces, and records the symbols that it leaves; it fails if the expression leads to a circular
definition. -/
theorem expand_total (hA : A.Layered) (hΓ : ∀ b ∈ Γ.bodies, Stored b A) (hh : Stored h A)
    (mode : Mode) :
    let Δ := Γ.definitions A
    let e := A.expression h
    (∀ steps, (maxSubstitutionDepth + 1) * A.size ≤ steps →
      traverse Γ mode steps maxSubstitutionDepth [] h (A, {}) =
        TraverseM.lift (e.expand Δ mode) (A, {})) ∧
    (∀ k B s, e.expand Δ mode (A, {}) = (.ok k, (B, s)) →
      ∃ t, Denotes t k B ∧ t.Unfolded fun id => Kept Δ mode id ∧ id ∈ s.met) ∧
    (MeetsCircle Δ mode (∅, e) → ∃ x, (e.expand Δ mode (A, {})).1 = .error x) := by
  intro Δ e
  obtain ⟨names, hgrounded, hexpression⟩ := exists_grounded hA Γ
  refine ⟨fun steps hsteps => ?_, fun k B s hrun => ?_, fun hcircle => ?_⟩
  · have hlt : maxSubstitutionDepth * A.size + h.index < steps := by
      have := Arena.contains_iff.1 hh
      rw [Nat.succ_mul] at hsteps
      unfold Arena.size at *
      omega
    exact traverse_agrees hA hΓ hexpression steps hh hlt [] [] (A, {})
      ⟨hgrounded, .refl A, rfl⟩
  · obtain ⟨t, ht, hk, hmet⟩ := expand_of_layered hA hrun
    have hunfolded := unfolded_of_unfold ht
    refine ⟨t, hk, ⟨fun id hid => ⟨hunfolded.symbols id hid, ?_⟩, hunfolded.noCall,
      hunfolded.noMatrix, hunfolded.several⟩⟩
    -- no parameter is in scope at first, so a symbol that is left has been met
    rcases (traces_unfoldAt _).origin ht hid with ⟨x, hx, rfl⟩ | ⟨p, hp, -⟩
    · rw [hmet, mem_addNew]
      exact .inr (List.mem_map_of_mem hx)
    · cases hp
  · rcases hrun : e.expand Δ mode (A, {}) with ⟨x | k, B, s⟩
    · exact ⟨x, rfl⟩
    · obtain ⟨t, ht, -⟩ := expand_of_layered hA hrun
      exact absurd ht (unfold_ne_ok_of_meetsCircle hcircle t)

/-! ### A function, and a variable that is defined by itself -/

/-- The nodes of `a`, `1`, `a + 1`, `x`, `y`, `x + y`, `f(1)` and `1 + y`. -/
def loopNodes : List Node :=
  [.symbol 0, .integer 1, .sum [⟨0⟩, ⟨1⟩], .symbol 2, .symbol 3, .sum [⟨3⟩, ⟨4⟩], .call 1 ⟨1⟩,
    .sum [⟨1⟩, ⟨4⟩]]

/-- The arena of these nodes. -/
def loopArena : Arena := .ofNodes ["a", "f", "x", "y"] loopNodes

/-- The definitions `a = a + 1` and `f(x) = x + y`. -/
def loopContext : Context Handle :=
  (({} : Context Handle).define "a" (.variable ⟨2⟩)).define "f" (.function "x" ⟨5⟩)

theorem wellFormed_loopArena : loopArena.WellFormed := .ofNodes (by decide) (by decide) (by decide)

theorem intern_loopArena {n : Node} (hn : n ∈ loopNodes) :
    Build.intern n loopArena = (.ok ⟨loopNodes.idxOf n⟩, loopArena) :=
  Build.intern_ofNodes wellFormed_loopArena hn

theorem value?_loopContext : (loopContext.definitions loopArena).value? 0 =
    some (.sum [.symbol 0, .integer 1]) := by rfl

theorem function?_loopContext : (loopContext.definitions loopArena).function? 1 =
    some (some 2, .sum [.symbol 2, .symbol 3]) := by
  have hx : loopArena.symbolId? "x" = some 2 := Symbols.id?_of_name? (by decide) rfl
  exact congrArg (fun parameter => some (parameter, _)) hx

theorem meetsCircle_loopArena :
    MeetsCircle (loopContext.definitions loopArena) .replaceAll (∅, .symbol 0) := by
  have hbound : 0 ∉ (∅ : Set Nat) := Set.notMem_empty 0
  refine ⟨(∅, .sum [.symbol 0, .integer 1]), .single ?_, .single ?_⟩
  · exact .value rfl .self hbound value?_loopContext
  · exact .value rfl (.operand List.mem_cons_self .self) hbound value?_loopContext

section Runs

attribute [local simp] Build.expand_eq Build.expandAt_succ expandWith pure_run expandAllWith
  expandSymbol expandCall ExpandM.build bind_run Build.integer Build.sum_pair Build.meet_run
  function?_loopContext intern_loopArena loopNodes List.lookup_cons List.lookup_nil

/-- The function is replaced by its body, and its parameter by the argument. -/
theorem expand_loopArena :
    expand (loopContext.definitions loopArena) .replaceAll (.call 1 (.integer 1)) (loopArena, {}) =
      (.ok ⟨7⟩, (loopArena, { met := [3] })) := by
  have hfree : (loopContext.definitions loopArena).value? 3 = none := rfl
  have hdepends (s : Encounters) :
      ExpandM.dependOn ⟨1⟩ (loopArena, s) = (.ok (), (loopArena, s)) := rfl
  simp (disch := decide) [-bind_pure_comp, hfree, hdepends]

end Runs

/-- With `a = a + 1` and `f(x) = x + y`, the expansion of `f(1)` is `1 + y`, and that of `a`
terminates and fails. -/
theorem expand_total_loopArena :
    (loopArena.Layered ∧ (∀ b ∈ loopContext.bodies, Stored b loopArena) ∧
      Stored ⟨6⟩ loopArena ∧ Stored ⟨0⟩ loopArena) ∧
    (∀ steps, 264 ≤ steps → traverse loopContext .replaceAll steps 32 [] ⟨6⟩ (loopArena, {}) =
      (.ok ⟨7⟩, (loopArena, { met := [3] }))) ∧
    ((Expression.sum [.integer 1, .symbol 3]).Unfolded fun id =>
      Kept (loopContext.definitions loopArena) .replaceAll id ∧ id ∈ [3]) ∧
    (∀ steps, 264 ≤ steps → traverse loopContext .replaceAll steps 32 [] ⟨0⟩ (loopArena, {}) =
      TraverseM.lift (expand (loopContext.definitions loopArena) .replaceAll (.symbol 0))
        (loopArena, {})) ∧
    ∃ x, (expand (loopContext.definitions loopArena) .replaceAll (.symbol 0) (loopArena, {})).1 =
      .error x := by
  have hlayered := wellFormed_loopArena.layered
  have hstored : ∀ b ∈ loopContext.bodies, Stored b loopArena := by
    simp [loopContext, Context.define, Context.undefine, Context.bodies, Definition.body]
    exact ⟨rfl, rfl⟩
  have hcall : Stored ⟨6⟩ loopArena := by rfl
  have hsymbol : Stored ⟨0⟩ loopArena := by rfl
  obtain ⟨hends, hunfolds, -⟩ := expand_total hlayered hstored hcall .replaceAll
  obtain ⟨hterminates, -, hfails⟩ := expand_total hlayered hstored hsymbol .replaceAll
  obtain ⟨t, ht, hunfolded⟩ := hunfolds _ _ _ expand_loopArena
  obtain rfl : Expression.sum [.integer 1, .symbol 3] = t := Option.some.inj ht
  refine ⟨⟨hlayered, hstored, hcall, hsymbol⟩, fun steps hsteps => ?_, hunfolded, hterminates,
    hfails meetsCircle_loopArena⟩
  refine (hends steps hsteps).trans ?_
  change TraverseM.lift (expand _ _ (.call 1 (.integer 1))) _ = _
  rw [TraverseM.lift, adapt_run, expand_loopArena]
  rfl

end Expression

end Resolvent

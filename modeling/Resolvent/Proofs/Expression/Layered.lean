import Mathlib.Data.List.Nodup
import Resolvent.Proofs.Expression.Encounters
import Resolvent.Proofs.Expression.Faithful
import Resolvent.Proofs.Expression.Room

/-!
# Layered arenas

In a layered arena the operands of a node come before it, and the index gives the handle of each
stored node (`Arena.Layered`).  Well-formed and faithful arenas are layered.  Nothing is said of
names: in a layered arena there may be symbols whose names are forgotten.

Expansion neither reads names nor changes them.  So it does in a layered arena what it does in one
with more names, and with enough of them the arena is well-formed (`Expression.expand_of_layered`).
-/

namespace Resolvent

namespace Arena

/-- Operands come before the nodes that use them, the numbers of symbols and of user functions are
words, and the index gives the handle of each stored node and of no other. -/
structure Layered (A : Arena) : Prop where
  operand_lt : ∀ h n, A.node? h = some n → ∀ c ∈ n.children, c.index < h.index
  word : ∀ h n, A.node? h = some n → ∀ id, n.name? = some id → id ≤ Symbols.maxId
  indexed : A.Indexed

theorem WellFormed.layered {A : Arena} (hA : A.WellFormed) : A.Layered :=
  ⟨hA.operand_lt, fun h n hn id hid => (hA.named h n hn id hid).2, hA.indexed⟩

theorem Faithful.layered {A : Arena} (hA : A.Faithful) : A.Layered where
  operand_lt h n hn c hc := (hA.operand h n hn c hc).2
  word h n hn id hid := by
    have hproper := hA.proper h n hn
    cases n with
    | symbol | call => exact Option.some.inj hid ▸ hproper
    | _ => cases hid
  indexed := hA.index_iff

/-! ### Other names -/

/-- The first arena has certain names, and the second one has others in their place. -/
def Renamed (old new : Symbols) (A B : Arena) : Prop :=
  A.symbols = old ∧ B = { A with symbols := new }

section Renamed

variable {old new : Symbols} {A B : Arena}

theorem Renamed.read?_eq (h : Renamed old new A B) (depth : Nat) (k : Handle) :
    B.read? depth k = A.read? depth k := by
  obtain ⟨-, rfl⟩ := h
  induction depth generalizing k with
  | zero => rfl
  | succ depth ih =>
    have hread : Arena.read? { A with symbols := new } depth = A.read? depth := funext ih
    rw [read?_succ, read?_succ, hread]
    rfl

theorem Renamed.expression?_eq (h : Renamed old new A B) (k : Handle) :
    B.expression? k = A.expression? k := by
  have hread := h.read?_eq A.nodes.size k
  obtain ⟨-, rfl⟩ := h
  exact hread

instance : Alike (Renamed old new) where
  expression_eq h := by
    funext k
    exact congrArg (Option.getD · .undefined) (h.expression?_eq k)
  intern_steady n := by
    rintro A _ ⟨rfl, rfl⟩
    rw [Build.intern_run, Build.intern_run]
    dsimp only
    rcases A.index[n]? with - | h
    · by_cases hroom : A.nodes.size < A.limit
      · rw [if_pos hroom, if_pos hroom]
        exact .inr ⟨rfl, rfl, rfl⟩
      · rw [if_neg hroom, if_neg hroom]
        exact .inr ⟨rfl, rfl, rfl⟩
    · exact .inr ⟨rfl, rfl, rfl⟩

end Renamed

theorem exists_forall_lt (ids : List Nat) : ∃ b, ∀ id ∈ ids, id < b := by
  induction ids with
  | nil => exact ⟨0, nofun⟩
  | cons id ids ih =>
    obtain ⟨b, hb⟩ := ih
    refine ⟨max (id + 1) b, List.forall_mem_cons.2 ⟨?_, fun id hid => ?_⟩⟩
    · omega
    · have := hb id hid
      omega

/-- There are tables of any number of names. -/
theorem exists_symbols (n : Nat) : ∃ names : Symbols, names.size = n := by
  have hnames : ((List.range n).map fun i => String.ofList (List.replicate i 'x')).Nodup := by
    refine List.Nodup.map (fun i j hij => ?_) List.nodup_range
    simpa using congrArg String.length hij
  exact ⟨.ofNames _ hnames, by simp [Symbols.ofNames, Symbols.size]⟩

/-- With enough names, a layered arena is well-formed. -/
theorem Layered.exists_wellFormed {A : Arena} (hA : A.Layered) :
    ∃ names, WellFormed { A with symbols := names } := by
  obtain ⟨b, hb⟩ := exists_forall_lt (A.nodes.toList.filterMap Node.name?)
  obtain ⟨names, rfl⟩ := exists_symbols b
  refine ⟨names, hA.operand_lt, fun h n hn id hid => ?_, fun n h => (hA.indexed n h).1,
    fun h n => (hA.indexed n h).2⟩
  have hmem : n ∈ A.nodes.toList := Array.mem_toList_iff.2 (Array.mem_of_getElem? hn)
  exact ⟨hb id (List.mem_filterMap.2 ⟨n, hmem, hid⟩), hA.word h n hn id hid⟩

end Arena

namespace Expression

open Arena

variable {A B : Arena} {h : Handle} {names : Symbols}

theorem value?_definitions (Γ : Context Handle) (A : Arena) (id : Nat) :
    (Γ.definitions A).value? id = ((A.symbolName? id).bind Γ.value?).map A.expression := by
  rw [Option.map_bind]
  rfl

theorem function?_definitions (Γ : Context Handle) (A : Arena) (id : Nat) :
    (Γ.definitions A).function? id = ((A.symbolName? id).bind Γ.function?).map
      fun d => (A.symbolId? d.1, A.expression d.2) := by
  rw [Option.map_bind]
  rfl

/-- With other names, the arena is well-formed, and it stores what the definitions refer to and what
the parameters in scope stand for. -/
structure Grounded (names : Symbols) (Δ : Definitions) (arguments : Arguments) (scope : Parameters)
    (A : Arena) : Prop where
  wellFormed : WellFormed { A with symbols := names }
  definitions : Δ.IdentifiersIn names.IsNumber
  denotes : DenotesScope arguments scope A

variable {Δ : Definitions} {mode : Mode} {depth : Nat} {arguments : Arguments} {scope : Parameters}
  {e : Expression} {k : Handle} {x y : Arena × Encounters}

/-- With other names, expansion does the same. -/
theorem expandAt_renamed (hrun : expandAt Δ mode depth scope e x = (.ok k, y)) (new : Symbols) :
    ∃ B, expandAt Δ mode depth scope e ({ x.1 with symbols := new }, x.2) = (.ok k, (B, y.2)) ∧
      Renamed x.1.symbols new y.1 B := by
  have hsteady : ExpandM.SteadyIn (Renamed x.1.symbols new) (expandAt Δ mode depth scope e) :=
    expandAt_steady depth scope e
  rcases hnew : expandAt Δ mode depth scope e ({ x.1 with symbols := new }, x.2) with ⟨r, B, s⟩
  rcases (hsteady x).runs hrun hnew ⟨⟨rfl, rfl⟩, rfl⟩ with ⟨_, ⟨_, rfl⟩, hr⟩ | ⟨rfl, hB, hs⟩
  · cases hr
  · exact ⟨B, by rw [show y.2 = s from hs], hB⟩

/-- Expansion keeps what it needs, and gives a handle of what the expression unfolds to. -/
theorem Grounded.expandAt (hx : Grounded names Δ arguments scope x.1)
    (he : e.IdentifiersIn names.IsNumber)
    (hrun : expandAt Δ mode depth scope e x = (.ok k, y)) :
    Grounded names Δ arguments scope y.1 ∧ y.1.symbols = x.1.symbols ∧ x.1.GrowsTo y.1 ∧
      ∃ t, unfoldAt Δ mode depth arguments e = .ok t ∧ Denotes t k y.1 := by
  obtain ⟨B, hnew, hsymbols, rfl⟩ := expandAt_renamed hrun names
  have hfollows : Follows names (Expression.expandAt Δ mode depth) _ := follows_expandAt hx.definitions depth
  have hcomputes := hfollows arguments scope e ({ x.1 with symbols := names }, x.2) ?_
    ⟨hx.wellFormed, rfl⟩ he
  · obtain ⟨hgrows, hkeeps, hresult⟩ := hcomputes.yields
    rw [hnew] at hkeeps hresult
    have hxy : x.1.GrowsTo y.1 := by
      have hgrows : Along Arena.GrowsTo Prod.fst (Expression.expandAt Δ mode depth scope e) :=
        expandAt_grows depth scope e
      simpa [hrun] using hgrows x
    obtain ⟨t, ht, hk⟩ := hresult k rfl
    refine ⟨⟨hkeeps.wellFormed, hx.definitions, hx.denotes.grow hxy⟩, hsymbols, hxy, t, ht, ?_⟩
    rwa [Denotes, Renamed.expression?_eq ⟨hsymbols, rfl⟩] at hk
  · refine hx.denotes.imp fun p q hpq => ⟨hpq.1, ?_⟩
    rw [Denotes, Renamed.expression?_eq ⟨rfl, rfl⟩]
    exact hpq.2

/-- With enough names, an expansion of an expression that is stored in a layered arena may begin. -/
theorem exists_grounded (hA : A.Layered) (Γ : Context Handle) :
    ∃ names, Grounded names (Γ.definitions A) [] [] A ∧
      ∀ h, (A.expression h).IdentifiersIn names.IsNumber := by
  obtain ⟨names, hnames⟩ := hA.exists_wellFormed
  have hexpression : ∀ h, (A.expression h).IdentifiersIn names.IsNumber := by
    intro h
    have hrenamed : Renamed A.symbols names A { A with symbols := names } := ⟨rfl, rfl⟩
    rw [← Alike.expression_eq hrenamed]
    exact hnames.identifiersIn_expression h
  refine ⟨names, ⟨hnames, ⟨fun id e he => ?_, fun id d hd => ?_⟩, .nil⟩, hexpression⟩
  · rw [value?_definitions] at he
    obtain ⟨h, -, rfl⟩ := Option.map_eq_some_iff.1 he
    exact hexpression h
  · rw [function?_definitions] at hd
    obtain ⟨d, -, rfl⟩ := Option.map_eq_some_iff.1 hd
    exact hexpression d.2

/-- In a layered arena, an expansion that succeeds gives a handle of what the expression unfolds to,
and records the symbols that it meets. -/
theorem expand_of_layered (hA : A.Layered) {Γ : Context Handle} {s : Encounters}
    (hrun : (A.expression h).expand (Γ.definitions A) mode (A, {}) = (.ok k, (B, s))) :
    ∃ t, (A.expression h).unfold (Γ.definitions A) mode = .ok t ∧ Denotes t k B ∧
      s.met = addNew [] (((A.expression h).encounters (Γ.definitions A) mode).map Encounter.id) := by
  obtain ⟨names, hgrounded, hexpression⟩ := exists_grounded hA Γ
  obtain ⟨-, -, -, t, ht, hk⟩ := Grounded.expandAt hgrounded (hexpression h) hrun
  obtain ⟨B', hnew, -⟩ := expandAt_renamed hrun names
  have hmet := expand_records mode hgrounded.definitions ⟨hgrounded.wellFormed, rfl⟩ (hexpression h)
    hnew
  exact ⟨t, ht, hk, hmet.1⟩

end Expression

end Resolvent

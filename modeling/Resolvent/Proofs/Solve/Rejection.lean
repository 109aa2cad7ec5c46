import Resolvent.Proofs.Expression.Growth
import Resolvent.Proofs.Solve.EquationText
import Resolvent.Proofs.Solve.Session
import Resolvent.Term.Reader

/-!
# Equations that are not stored

A text that is not stored as an equation leaves the equations as they are, but not the arena.  The
sides are imported one after the other, cell by cell, and nothing takes back what was stored before
the cell that fails: the cells before it, and the whole left side where the right side fails
(`Equation.Leaves`).  The store forgets the footprint of the last solve, so nothing that it does
later releases these nodes and names either.

`EquationStore.addText_error` says this for every text.  The arena is the tidy one again exactly if
nothing was stored that was not there before; a rollback to the tidy arena would always lead back to
it.
-/

namespace Resolvent

variable {σ ε α β : Type} {read : Term.Reader}

/-- A fold that fails does so at one of the members, after those before it. -/
theorem foldlM_eq_error {f : β → α → ExceptT ε (StateM σ) β} {xs : List α} {b : β} {x y : σ} {e : ε}
    (h : xs.foldlM f b x = (.error e, y)) : ∃ pre a post c z, xs = pre ++ a :: post ∧
      pre.foldlM f b x = (.ok c, z) ∧ f c a z = (.error e, y) := by
  induction xs generalizing b x with
  | nil => cases h
  | cons a xs ih =>
    rw [List.foldlM_cons, bind_run] at h
    rcases hrun : f b a x with ⟨e' | c, z⟩
    · rw [hrun] at h
      cases h
      exact ⟨[], a, xs, b, x, rfl, rfl, hrun⟩
    · rw [hrun] at h
      obtain ⟨pre, a', post, c', z', rfl, hpre, ha'⟩ := ih h
      refine ⟨a :: pre, a', post, c', z', rfl, ?_, ha'⟩
      rw [List.foldlM_cons, bind_run, hrun]
      exact hpre

/-! ### What a side leaves -/

/-- What is left in an arena of a text that is no expression. -/
inductive Build.Leaves (read : Term.Reader) (A : Arena) (text : String) :
    ImportError → Arena → Prop
  /-- Nothing of a text that is no term. -/
  | nothing : Leaves read A text .malformed A
  /-- What the term of the cells before the one that fails leaves, and what that cell does. -/
  | cells {t : Term} {before after : List Cell} {c : Cell} {operands : List (Head × Handle)}
      {e : ImportError} {B : Arena} (hterm : read text = some t)
      (hcells : t.cells.toList = before ++ c :: after)
      (hfails : c.head.build [] operands ((⟨before.toArray⟩ : Term).build [] A).2 = (.error e, B)) :
      Leaves read A text e B

/-- Stores one cell behind those that are stored. -/
def Term.storeCell (built : Array (Head × Handle)) (c : Cell) :
    BuildT ImportError (Array (Head × Handle)) := do
  let h ← c.head.build [] (c.operands.filterMap fun i => built[i]?)
  return built.push (c.head, h)

/-- The root is the last cell. -/
def Term.root (built : Array (Head × Handle)) : Except ImportError Handle :=
  match built.back? with
  | some (_, h) => .ok h
  | none => .error .malformed

/-- Storing a term stores its cells, and fails without any. -/
theorem Term.build_run (t : Term) (A : Arena) :
    t.build [] A = match t.cells.toList.foldlM storeCell #[] A with
      | (.ok built, B) => (root built, B)
      | (.error e, B) => (.error e, B) := by
  have hstep : (fun (built : Array (Head × Handle)) (c : Cell) => (do
      let operands := c.operands.filterMap fun i => built[i]?
      let h ← c.head.build [] operands
      return built.push (c.head, h) : BuildT ImportError (Array (Head × Handle)))) = storeCell := rfl
  unfold Term.build
  rw [bind_run, ← Array.foldlM_toList, hstep]
  rcases t.cells.toList.foldlM storeCell #[] A with ⟨e | built, B⟩
  · rfl
  · dsimp only
    unfold root
    rcases built.back? with - | ⟨_, h⟩ <;> rfl

theorem Term.storeCell_run (built : Array (Head × Handle)) (c : Cell) (A : Arena) :
    storeCell built c A =
      match c.head.build [] (c.operands.filterMap fun i => built[i]?) A with
      | (.ok h, B) => (.ok (built.push (c.head, h)), B)
      | (.error e, B) => (.error e, B) := by
  unfold storeCell
  rw [bind_run]
  rcases c.head.build [] (c.operands.filterMap fun i => built[i]?) A with ⟨e | h, B⟩ <;> rfl

/-- A text that is a symbol or a number stores what its only cell does. -/
theorem Build.ofText_of_cell {text : String} {head : Head}
    (h : read text = some ⟨#[⟨head, []⟩]⟩) (A : Arena) :
    Build.ofText read text A = head.build [] [] A := by
  unfold Build.ofText
  rw [h]
  dsimp only
  rw [Term.build_run]
  simp only [List.foldlM_cons, List.foldlM_nil, bind_run, Term.storeCell_run, List.filterMap_nil]
  rcases head.build [] [] A with ⟨e | k, B⟩
  · rfl
  · rfl

/-- Each cell that is stored adds an operand for later ones. -/
theorem size_of_foldlM_storeCell {cells : List Cell} {built built' : Array (Head × Handle)}
    {A B : Arena} (h : cells.foldlM Term.storeCell built A = (.ok built', B)) :
    built'.size = built.size + cells.length := by
  induction cells generalizing built A with
  | nil =>
    cases h
    rfl
  | cons c cells ih =>
    rw [List.foldlM_cons, bind_run, Term.storeCell_run] at h
    rcases hrun : c.head.build [] (c.operands.filterMap fun i => built[i]?) A with ⟨e | next, C⟩
    · rw [hrun] at h
      cases h
    · rw [hrun] at h
      rw [ih h, Array.size_push, List.length_cons]
      omega

/-- A text that is no expression leaves what `Leaves` says. -/
theorem Build.leaves_of_error {text : String} {A B : Arena} {e : ImportError}
    (h : Build.ofText read text A = (.error e, B)) : Build.Leaves read A text e B := by
  unfold Build.ofText at h
  cases hterm : read text with
  | none =>
    rw [hterm] at h
    cases h
    exact .nothing
  | some t =>
    rw [hterm] at h
    dsimp only at h
    rw [Term.build_run] at h
    rcases hcells : t.cells.toList.foldlM Term.storeCell #[] A with ⟨e' | built, C⟩
    · rw [hcells] at h
      cases h
      obtain ⟨before, c, after, stored, D, hsplit, hbefore, hc⟩ := foldlM_eq_error hcells
      have hD : ((⟨before.toArray⟩ : Term).build [] A).2 = D := by
        rw [Term.build_run, List.toList_toArray, hbefore]
      rw [Term.storeCell_run] at hc
      rcases hrun : c.head.build [] (c.operands.filterMap fun i => stored[i]?) D with ⟨e' | h, E⟩
      · rw [hrun] at hc
        cases hc
        rw [← hD] at hrun
        exact .cells hterm hsplit hrun
      · rw [hrun] at hc
        cases hc
    · -- the root is missing only if there are no cells
      rw [hcells] at h
      obtain ⟨hroot, rfl⟩ := Prod.mk.inj h
      have hback : built.back? = none := by
        unfold Term.root at hroot
        split at hroot
        · cases hroot
        · assumption
      have hempty : t.cells.toList = [] := by
        have hsize := size_of_foldlM_storeCell hcells
        rw [Array.back?_eq_none_iff.1 hback] at hsize
        exact List.eq_nil_of_length_eq_zero (by simpa using hsize.symm)
      rw [hempty] at hcells
      cases hcells
      cases hroot
      exact .nothing

/-! ### What an equation leaves -/

/-- What is left in an arena of a text that is no equation. -/
inductive Equation.Leaves (read : Term.Reader) (A : Arena) (text : String) :
    StoreError → Arena → Prop
  /-- Nothing of a text that does not consist of the sign and two sides. -/
  | malformed : Leaves read A text (.malformed text) A
  /-- What the left side leaves. -/
  | left {inner l r : List Char} {e : ImportError} {B : Arena} (hinner : inside? text = some inner)
      (hitems : splitItems inner = [l, r]) (hl : Build.Leaves read A (String.ofList l) e B) :
      Leaves read A text (.unreadable e) B
  /-- The left side, and what the right side leaves. -/
  | right {inner l r : List Char} {h : Handle} {C : Arena} {e : ImportError} {B : Arena}
      (hinner : inside? text = some inner) (hitems : splitItems inner = [l, r])
      (hl : Build.ofText read (String.ofList l) A = (.ok h, C))
      (hr : Build.Leaves read C (String.ofList r) e B) : Leaves read A text (.unreadable e) B

theorem Equation.leaves_of_error {text : String} {A B : Arena} {x : StoreError}
    (h : parse read text A = (.error x, B)) : Leaves read A text x B := by
  rcases hitems : (inside? text).map splitItems with - | ⟨- | ⟨l, - | ⟨r, - | ⟨_, _⟩⟩⟩⟩
  case some.cons.cons.nil =>
    obtain ⟨inner, hinner, hsplit⟩ := Option.map_eq_some_iff.1 hitems
    rw [parse_run_of_two read hinner hsplit] at h
    rcases hl : Build.ofText read (String.ofList l) A with ⟨e | lhs, C⟩
    · rw [hl] at h
      cases h
      exact .left hinner hsplit (Build.leaves_of_error hl)
    · rw [hl] at h
      dsimp only at h
      rcases hr : Build.ofText read (String.ofList r) C with ⟨e | rhs, D⟩
      · rw [hr] at h
        cases h
        exact .right hinner hsplit hl (Build.leaves_of_error hr)
      · rw [hr] at h
        cases h
  all_goals
    unfold parse at h
    rw [hitems] at h
    cases h
    exact .malformed

theorem Equation.parse_grows (read : Term.Reader) (text : String) :
    Along Arena.GrowsTo id (parse read text) := by
  have hside : ∀ text, Along Arena.GrowsTo id
      (ExceptT.adapt StoreError.unreadable (Build.ofText read text)) := by
    intro text
    refine Along.adapt _ ?_
    unfold Build.ofText
    split
    · exact Term.build_grows _ _
    · exact Along.throw _
  unfold parse
  split
  · exact (hside _).bind fun _ => (hside _).bind fun _ => Along.pure _
  · exact Along.throw _

/-- An arena that has grown by nothing is the same. -/
theorem Arena.GrowsTo.eq_iff {A B : Arena} (h : A.GrowsTo B) :
    B = A ↔ B.size = A.size ∧ B.symbols.size = A.symbols.size := by
  constructor
  · rintro rfl
    exact ⟨rfl, rfl⟩
  · rintro ⟨hsize, hsymbols⟩
    have hcheckpoint : B.checkpoint = A.checkpoint := congrArg₂ Checkpoint.mk hsize hsymbols
    rw [← h.rollback, ← hcheckpoint, B.rollback_checkpoint]

namespace EquationStore

/-- **An equation that is not stored** leaves the equations as they are.  Without a free slot nothing
happens at all.  Otherwise the nodes of the last solve are released, and the arena then grows by what
the text leaves: it is the tidy one exactly if there are no more nodes and names than before, it
would be so again after a rollback, and no tidying up releases what has been added. -/
theorem addText_error {s t : EquationStore} {Γ : Context Handle} {text : String} {A B : Arena}
    {x : StoreError} (h : s.addText Γ read text A = (.error x, t, B)) :
    t.slots = s.slots ∧
    ((s.freeSlot? = none ∧ x = .full maxVariables ∧ t = s ∧ B = A) ∨
      s.freeSlot? ≠ none ∧ t = s.clear ∧ Equation.Leaves read (s.release Γ A) text x B ∧
        (B = s.release Γ A ↔ B.size = (s.release Γ A).size ∧
          B.symbols.size = (s.release Γ A).symbols.size) ∧
        B.rollback (s.release Γ A).checkpoint = s.release Γ A ∧
        ∀ Γ', t.tidy Γ' B = (t, B)) := by
  rcases hfree : s.freeSlot? with - | slot
  · rw [addText, if_pos (by rw [hfree]; rfl)] at h
    cases h
    exact ⟨rfl, .inl ⟨rfl, rfl, rfl, rfl⟩⟩
  · rw [addText, if_neg (by simp [hfree])] at h
    dsimp only [tidy] at h
    have hgrows := Equation.parse_grows read text (s.release Γ A)
    rcases hrun : Equation.parse read text (s.release Γ A) with ⟨y | e, C⟩
    · rw [hrun] at h hgrows
      cases h
      exact ⟨rfl, .inr ⟨Option.some_ne_none _, rfl, Equation.leaves_of_error hrun,
        Arena.GrowsTo.eq_iff hgrows, Arena.GrowsTo.rollback hgrows, fun Γ' => rfl⟩⟩
    · -- the equation is stored, since there is a free slot
      have hfree' : s.clear.freeSlot? = some slot := hfree
      rw [hrun] at h
      dsimp only at h
      rw [add, hfree'] at h
      cases h

/-- A symbol takes a node and a name of an empty arena. -/
theorem symbol_run_empty : ∃ B, Build.symbol "x" ({} : Arena) = (.ok ⟨0⟩, B) ∧ B.size = 1 ∧
    B.symbols.size = 1 := by
  have hnew : ({} : Symbols).place? "x" = none := by simp [Symbols.place?]
  refine ⟨(Build.symbol "x" {}).2, Prod.ext ?_ rfl, ?_, ?_⟩
  · simp [Build.symbol, bind_run, Build.intern_run, Build.internSymbol_run]
  · simp [Build.symbol, bind_run, Build.intern_run, Build.internSymbol_run, Arena.size]
  · have hnames := (Symbols.names_intern_of_new hnew).2
    simp [Build.symbol, bind_run, Build.intern_run, Build.internSymbol_run, Symbols.size, hnames]

/-- The symbol of the left side stays when the right side is no name. -/
theorem addText_error_longName : ∃ t B,
    addText {} {} Term.parse? "(= x abcdefgh)" {} =
      (.error (.unreadable (.invalidName "abcdefgh")), t, B) ∧
    t.slots = ({} : EquationStore).slots ∧ B ≠ release {} {} {} ∧ B.size = 1 ∧
      B.symbols.size = 1 ∧ ∀ Γ, t.tidy Γ B = (t, B) := by
  have hinner : Equation.inside? "(= x abcdefgh)" = some " x abcdefgh".toList := by decide +kernel
  have hitems : Equation.splitItems " x abcdefgh".toList = ["x".toList, "abcdefgh".toList] := by
    decide +kernel
  have hx : Term.parse? "x" = some ⟨#[⟨.symbol "x", []⟩]⟩ := by decide +kernel
  have hlong : Term.parse? "abcdefgh" = some ⟨#[⟨.symbol "abcdefgh", []⟩]⟩ := by decide +kernel
  have hname : "x".toList = ['x'] := by decide +kernel
  have hlongName : "abcdefgh".toList = ['a', 'b', 'c', 'd', 'e', 'f', 'g', 'h'] := by
    decide +kernel
  have hbuild : Head.buildSymbol [] "x" = Build.lift .exhausted (Build.symbol "x") := by
    unfold Head.buildSymbol
    rw [hname]
    rfl
  have hthrow : Head.buildSymbol [] "abcdefgh" = throw (.invalidName "abcdefgh") := by
    unfold Head.buildSymbol
    rw [hlongName]
    rfl
  obtain ⟨B, hsymbol, hsize, hsymbols⟩ := symbol_run_empty
  have hleft : Build.ofText Term.parse? "x" {} = (.ok ⟨0⟩, B) := by
    rw [Build.ofText_of_cell hx, Head.build, hbuild, Build.lift, adapt_run, hsymbol]
    rfl
  have hright : Build.ofText Term.parse? "abcdefgh" B = (.error (.invalidName "abcdefgh"), B) := by
    rw [Build.ofText_of_cell hlong, Head.build, hthrow, throw_run]
  have hparse : Equation.parse Term.parse? "(= x abcdefgh)" (release {} {} {}) =
      (.error (.unreadable (.invalidName "abcdefgh")), B) := by
    rw [Equation.parse_run_of_two Term.parse? hinner hitems, String.ofList_toList, String.ofList_toList,
      show release {} {} {} = {} from rfl, hleft]
    dsimp only
    rw [hright]
  have hrun : addText {} {} Term.parse? "(= x abcdefgh)" {} =
      (.error (.unreadable (.invalidName "abcdefgh")), clear {}, B) := by
    rw [addText, if_neg (by decide)]
    dsimp only [tidy]
    rw [hparse]
  obtain ⟨hslots, ⟨hfull, -⟩ | ⟨-, -, -, hsame, -, htidy⟩⟩ := addText_error hrun
  · exact absurd hfull (by decide)
  · refine ⟨_, B, hrun, hslots, fun heq => ?_, hsize, hsymbols, htidy⟩
    have hzero := (hsame.1 heq).1
    rw [hsize] at hzero
    exact absurd hzero (by decide)

end EquationStore

end Resolvent

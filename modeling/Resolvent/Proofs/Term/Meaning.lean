import Resolvent.Proofs.Numeric.Numerals
import Resolvent.Proofs.Term.Agreement
import Resolvent.Proofs.Term.Values

/-!
# What terms mean

A cell of a term means an expression: its head puts it together from what its operands mean, and a
placeholder means what it stands for (`Head.Means`).  A term whose cells all mean something is stored
without fail, as long as the arena is not full, and what is stored is the expression that its root
means (`Term.Means.build`).
-/

namespace Resolvent

variable {ε α β : Type} {A : Arena} {names : Symbols}

/-! ### Computations that only a full arena stops -/

/-- There is no room for another node. -/
def Arena.IsFull (A : Arena) : Prop := A.limit ≤ A.nodes.size

/-- Run in a well-formed arena, the computation leaves the names as they are and gives a result with
a property; it stops only where the arena is full. -/
structure Completes (full : Exhausted → ε) (names : Symbols) (m : BuildT ε α) (A : Arena)
    (Q : α → Arena → Prop) : Prop where
  yields : Yields id (Arena.Consistent names) m A Q
  stops : ∀ e, (m A).1 = .error e → e = full ⟨(m A).2.limit⟩ ∧ (m A).2.IsFull

namespace Completes

variable {full : Exhausted → ε} {Q : α → Arena → Prop} {R : β → Arena → Prop}

theorem pure {a : α} (hA : A.Consistent names) (ha : Q a A) :
    Completes full names (Pure.pure a) A Q := ⟨.pure hA ha, nofun⟩

theorem bind {m : BuildT ε α} {f : α → BuildT ε β} (hm : Completes full names m A Q)
    (hf : ∀ a B, A.GrowsTo B → B.Consistent names → Q a B → Completes full names (f a) B R) :
    Completes full names (m >>= f) A R where
  yields := hm.yields.bind fun a B hAB hB ha => (hf a B hAB hB ha).yields
  stops := by
    obtain ⟨⟨hgrows, hkeeps, hresult⟩, hstops⟩ := hm
    rw [bind_run]
    rcases hrun : m A with ⟨e | a, B⟩ <;> rw [hrun] at hgrows hkeeps hresult hstops <;> dsimp only
    · exact fun x hx => hstops x (congrArg _ (Except.error.inj hx))
    · exact (hf a B hgrows hkeeps (hresult a rfl)).stops

theorem lift {m : Build α} (hm : Completes id names m A Q) :
    Completes full names (Build.lift full m) A Q := by
  refine ⟨hm.yields.adapt full, fun e he => ?_⟩
  change (m A).1.mapError full = .error e at he
  rcases hrun : (m A).1 with e' | a <;> rw [hrun] at he
  · obtain ⟨rfl, hfull⟩ := hm.stops e' hrun
    exact ⟨(Except.error.inj he).symm, hfull⟩
  · cases he

end Completes

namespace Build

variable {hs : List Handle} {h a b : Handle} {x y e : Expression} {xs : List Expression} {n : Node}

/-- The computation stores the expression, or stops because the arena is full. -/
abbrev Completes (names : Symbols) (m : Build Handle) (A : Arena) (e : Expression) : Prop :=
  Resolvent.Completes id names m A (Denotes e)

theorem intern_completes (hm : Stores names (intern n) A e) : Completes names (intern n) A e := by
  refine ⟨hm, fun x => ?_⟩
  rw [intern_run]
  split
  · exact nofun
  · split
    · exact nofun
    · next hfull => exact fun hx => ⟨(Except.error.inj hx).symm, Nat.not_lt.1 hfull⟩

theorem sum_completes (hA : A.Consistent names) (h : DenotesAll xs hs A) :
    Completes names (sum hs) A (Expression.sumOf xs) := by
  have hstores := sum_stores hA h
  match hs with
  | [] => exact intern_completes hstores
  | [_] => exact ⟨hstores, nofun⟩
  | _ :: _ :: _ => exact intern_completes hstores

theorem product_completes (hA : A.Consistent names) (h : DenotesAll xs hs A) :
    Completes names (product hs) A (Expression.productOf xs) := by
  have hstores := product_stores hA h
  match hs with
  | [] => exact intern_completes hstores
  | [_] => exact ⟨hstores, nofun⟩
  | _ :: _ :: _ => exact intern_completes hstores

/-- A name that the arena knows is stored as the symbol with its number. -/
theorem symbol_completes (hA : A.Consistent names) {id : Nat} {name : String}
    (hid : names.id? name = some id) : Completes names (symbol name) A (.symbol id) := by
  have hintern : internSymbol name A = (.ok id, A) := by
    rw [internSymbol_run, hA.symbols, Symbols.intern_of_id? hid, ← hA.symbols]
  have hrun : symbol name A = intern (.symbol id) A := by rw [symbol, bind_run, hintern]
  have h := intern_completes (symbol_stores hA (Symbols.isNumber_of_id? hid))
  obtain ⟨⟨hgrows, hkeeps, hresult⟩, hstops⟩ := h
  rw [← hrun] at hgrows hkeeps hresult hstops
  exact ⟨⟨hgrows, hkeeps, hresult⟩, hstops⟩

end Build

/-! ### Heads -/

namespace Head

/-- Import turns the name into a symbol. -/
def IsSymbolName (name : String) : Prop :=
  ∀ placeholders, buildSymbol placeholders name = Build.lift .exhausted (Build.symbol name)

/-- The head puts an expression together from others.  The exponential function is a power of
Euler's number. -/
inductive Means (names : Symbols) (placeholders : List Expression) :
    Head → List Expression → Expression → Prop where
  | number (n : Int) : Means names placeholders (.number n) [] (.integer n)
  | symbol {name : String} {id : Nat} (hname : IsSymbolName name)
    (hid : names.id? name = some id) : Means names placeholders (.symbol name) [] (.symbol id)
  | constant (c : Constant) : Means names placeholders (.symbol c.text) [] (.constant c)
  | placeholder {k : Nat} {e : Expression} (h : placeholders[k]? = some e) :
    Means names placeholders (.symbol ("$" ++ toString k)) [] e
  | add (a b : Expression) : Means names placeholders (.op .add) [a, b] (.sum [a, b])
  | mul (a b : Expression) : Means names placeholders (.op .mul) [a, b] (.product [a, b])
  | div (a b : Expression) : Means names placeholders (.op .div) [a, b] (.quotient a b)
  | neg (a : Expression) : Means names placeholders (.op .neg) [a] (.opposite a)
  | pow (a b : Expression) : Means names placeholders (.op .pow) [a, b] (.power a b)
  | exp (a : Expression) :
    Means names placeholders (.op (.apply .exp)) [a] (.power (.constant .e) a)
  | apply {f : Builtin} (hf : f ≠ .exp) (es : List Expression) :
    Means names placeholders (.op (.apply f)) es (.apply f.code es)

/-- What is put behind the placeholders changes no meaning. -/
theorem Means.append {ps : List Expression} {h : Head} {es : List Expression} {e : Expression}
    (hm : h.Means names ps es e) (qs : List Expression) : h.Means names (ps ++ qs) es e := by
  cases hm with
  | placeholder hk =>
    exact .placeholder (List.getElem?_append_left (List.getElem?_eq_some_iff.1 hk).1 ▸ hk)
  | symbol hname hid => exact .symbol hname hid
  | apply hf es => exact .apply hf es
  | _ => constructor

theorem placeholder?_toString (k : Nat) : placeholder? (toString k).toList = some k := by
  have hread : Decimal.signed? (toString k).toList = some (k : Int) := signed?_toString k
  have hsign : (toString k).toList.head? ≠ some '-' := by
    intro h
    have hdigit : '-' ∈ Nat.toDigits 10 k := by
      rw [← Nat.toList_repr]
      exact List.mem_of_mem_head? h
    exact absurd (isDigit_of_mem_digits hdigit) (by decide)
  unfold placeholder?
  rw [hread]
  exact if_neg hsign

theorem buildSymbol_placeholder {placeholders : List Handle} {k : Nat} {x : Handle}
    (h : placeholders[k]? = some x) : buildSymbol placeholders ("$" ++ toString k) = pure x := by
  have hlist : ("$" ++ toString k).toList = '$' :: (toString k).toList := by
    rw [String.toList_append]
    rfl
  unfold buildSymbol
  rw [hlist]
  simp only [placeholder?_toString, Option.bind_some, h]

variable {ps : List Expression} {placeholders : List Handle} {operands : List (Head × Handle)}
  {es : List Expression} {e : Expression} {h : Head}

/-- A head with a meaning is stored over handles of its operands. -/
theorem Means.build (hm : h.Means names ps es e) (hA : A.Consistent names)
    (hps : DenotesAll ps placeholders A) (hes : DenotesAll es (operands.map Prod.snd) A) :
    Completes .exhausted names (h.build placeholders operands) A (Denotes e) := by
  have hintern : ∀ {n : Node} {e : Expression}, Build.Stores names (Build.intern n) A e →
      Completes ImportError.exhausted names (Build.lift .exhausted (Build.intern n)) A (Denotes e) :=
    fun h => Completes.lift (Build.intern_completes h)
  cases hm with
  | number n => exact hintern (Build.intern_stores_of_plain hA rfl rfl rfl)
  | symbol hname hid =>
    rw [Head.build, hname placeholders]
    exact Completes.lift (Build.symbol_completes hA hid)
  | constant c =>
    have hconstant : buildSymbol placeholders c.text = Build.lift .exhausted (Build.constant c) := by
      cases c <;> rfl
    rw [Head.build, hconstant]
    exact hintern (Build.intern_stores_of_plain hA rfl rfl rfl)
  | placeholder hk =>
    obtain ⟨x, hx, hdenotes⟩ := hps.exists_of_getElem? hk
    rw [Head.build, buildSymbol_placeholder hx]
    exact .pure hA hdenotes
  | neg a =>
    obtain ⟨x, hx, ha⟩ := exists_of_denotesAll_singleton hes
    obtain ⟨x, rfl, rfl⟩ := List.map_eq_singleton_iff.1 hx
    exact hintern (Build.opposite_stores hA ha)
  | exp a =>
    obtain ⟨x, hx, ha⟩ := exists_of_denotesAll_singleton hes
    obtain ⟨x, rfl, rfl⟩ := List.map_eq_singleton_iff.1 hx
    refine Completes.lift (Completes.bind (Build.intern_completes
      (Build.intern_stores_of_plain hA rfl rfl rfl)) fun b B hAB hB hb => ?_)
    exact Build.intern_completes (Build.power_stores hB hb (hAB.expression? ha))
  | apply hf es =>
    rw [Head.build, buildOperator_apply hf]
    exact hintern (Build.applyCode_stores hA _ hes)
  | add a b | mul a b | div a b | pow a b =>
    obtain ⟨x, y, hxy, ha, hb⟩ := exists_of_denotesAll_pair hes
    obtain ⟨x, _, rfl, rfl, hy⟩ := List.map_eq_cons_iff.1 hxy
    obtain ⟨y, rfl, rfl⟩ := List.map_eq_singleton_iff.1 hy
    first
      | exact Completes.lift (Build.sum_completes hA hes)
      | exact Completes.lift (Build.product_completes hA hes)
      | exact hintern (Build.quotient_stores hA ha hb)
      | exact hintern (Build.power_stores hA ha hb)

end Head

/-! ### Terms -/

/-- The cells of the term mean the expressions, in order. -/
inductive Term.Means (names : Symbols) (placeholders : List Expression) :
    Term → List Expression → Prop where
  | empty : Means names placeholders {} []
  | push {t : Term} {c : Cell} {es args : List Expression} {e : Expression}
    (ht : Means names placeholders t es)
    (hargs : List.Forall₂ (fun i x => es[i]? = some x) c.operands args)
    (hc : c.head.Means names placeholders args e) :
    Means names placeholders (t.push c).2 (es ++ [e])

namespace Term.Means

variable {ps : List Expression} {placeholders : List Handle} {t : Term} {es : List Expression}
  {e : Expression}

theorem length_eq (ht : t.Means names ps es) : es.length = t.cells.size := by
  induction ht with
  | empty => rfl
  | push _ _ _ ih => simp [ih]

theorem append (ht : t.Means names ps es) (qs : List Expression) : t.Means names (ps ++ qs) es := by
  induction ht with
  | empty => exact .empty
  | push _ hargs hc ih => exact .push ih hargs (hc.append qs)

/-- The operands of a cell are found among the handles that were stored before it. -/
theorem denotes_operands {built : Array (Head × Handle)}
    (hbuilt : DenotesAll es (built.toList.map Prod.snd) A) {is : List Nat} {args : List Expression}
    (hargs : List.Forall₂ (fun i x => es[i]? = some x) is args) :
    DenotesAll args ((is.filterMap fun i => built[i]?).map Prod.snd) A := by
  induction hargs with
  | nil => exact denotesAll_nil.2 rfl
  | @cons i x is args hi _ ih =>
    obtain ⟨k, hk, hx⟩ := hbuilt.exists_of_getElem? hi
    rw [List.getElem?_map, Array.getElem?_toList] at hk
    obtain ⟨b, hb, rfl⟩ := Option.map_eq_some_iff.1 hk
    rw [List.filterMap_cons_some hb, List.map_cons]
    exact denotesAll_cons hx ih

/-- Storing the cells gives a handle of each of the expressions that they mean. -/
theorem completes_cells (ht : t.Means names ps es) (hA : A.Consistent names)
    (hps : DenotesAll ps placeholders A) :
    Completes ImportError.exhausted names
      (t.cells.foldlM
        (fun (built : Array (Head × Handle)) c => do
          let operands := c.operands.filterMap fun i => built[i]?
          let h ← c.head.build placeholders operands
          return built.push (c.head, h))
        #[]) A
      fun built B => DenotesAll es (built.toList.map Prod.snd) B := by
  induction ht with
  | empty => exact .pure hA (denotesAll_nil.2 rfl)
  | @push t c es args e _ hargs hc ih =>
    rw [Term.push, Array.foldlM_push]
    refine ih.bind fun built B hAB hB hbuilt => ?_
    refine (hc.build hB (hps.grow hAB) (denotes_operands hbuilt hargs)).bind fun h C hBC hC hh => ?_
    refine .pure hC ?_
    rw [Array.toList_push, List.map_append]
    exact (hbuilt.grow hBC).append (denotesAll_singleton hh)

/-- A term whose cells mean expressions is stored as the expression that its root means, unless the
arena is full. -/
theorem build (ht : t.Means names ps es) (he : es.getLast? = some e) (hA : A.Consistent names)
    (hps : DenotesAll ps placeholders A) :
    Completes .exhausted names (t.build placeholders) A (Denotes e) := by
  refine (ht.completes_cells hA hps).bind fun built B hAB hB hbuilt => ?_
  obtain ⟨h, hh, hdenotes⟩ := hbuilt.exists_of_getElem? (List.getLast?_eq_getElem?.symm.trans he)
  rw [← hbuilt.length_eq, ← List.getLast?_eq_getElem?, List.getLast?_map, Array.getLast?_toList] at hh
  obtain ⟨x, hx, rfl⟩ := Option.map_eq_some_iff.1 hh
  rw [hx]
  exact .pure hB hdenotes

end Term.Means

end Resolvent

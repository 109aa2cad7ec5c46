import Resolvent.Proofs.Expression.Tokens

/-!
# Reading texts

`reading` is the value of a text as it is usually read.  Powers come before signs, signs before
products and quotients, and these before sums; products and quotients are taken from the left, powers
from the right, and two operands side by side are multiplied.  The text is read from the left, sign
by sign: a `Frame` holds what has been read of a sum, and `Reading.run` goes through the signs with
the frame of the sum that is being read and those of the brackets around it.

What is read in a frame has a context: the operand to come is raised and signed, and multiplied with
the factors before it (`Frame.context`).  `Reads ops ts v` says that some signs are read as the value
`v` in every context that the operations `ops` pass through (`Passes`).
-/

namespace Resolvent

open Token

variable {V : Type}

/-! ### Frames -/

/-- What stands before an operand and binds more strongly than a product. -/
inductive Prefix (V : Type) where
  /-- A minus sign. -/
  | minus
  /-- A base and a caret. -/
  | base (b : V)

/-- What has been read of a sum that is not finished. -/
structure Frame (V : Type) where
  /-- The terms before the one that is being read. -/
  terms : Option V
  /-- The factors of the term before the one that is being read, and whether it divides them. -/
  factors : Option (V × Bool)
  /-- What stands before the operand, from the inside. -/
  prefixes : List (Prefix V)
  /-- The operand, once it is read. -/
  operand : Option V

/-- A bracket that is open. -/
inductive Bracket (V : Type) where
  /-- A parenthesis around a sum. -/
  | group
  /-- The parenthesis of a function, with the arguments that are finished. -/
  | call (name : List Char) (args : List V)
  /-- The bracket of a matrix, with the rows and the entries that are finished. -/
  | table (rows : List (List V)) (row : List V)

/-- The sum that is being read, and those around it, each with the bracket inside it. -/
structure Reading (V : Type) where
  /-- The innermost sum. -/
  frame : Frame V
  /-- The sums around it. -/
  outer : List (Frame V × Bracket V)

/-- Nothing has been read. -/
def Frame.start : Frame V := ⟨none, none, [], none⟩

namespace Semantics

variable (I : Semantics V)

/-- The value of a word. -/
def word (name : List Char) : Option V :=
  if name = Constant.pi.text.toList then some (I.constant .pi)
  else if name = Constant.e.text.toList then some (I.constant .e)
  else I.symbol (String.ofList name)

/-- The value of a function, which is built in if it has the name of such a function. -/
def callByName (name : List Char) (args : List V) : Option V :=
  match functionOf? name with
  | some f => I.function f args
  | none =>
    match args with
    | [v] => I.call (String.ofList name) v
    | _ => none

end Semantics

namespace Frame

variable (I : Semantics V)

/-- What a prefix makes of the operand behind it. -/
def applyPrefix : Prefix V → V → Option V
  | .minus => I.neg
  | .base b => I.power b

/-- The factor that an operand makes with what stands before it. -/
def factor (F : Frame V) (v : V) : Option V := F.prefixes.foldlM (fun w p => applyPrefix I p w) v

/-- The term that a factor makes with those before it. -/
def term (F : Frame V) (v : V) : Option V :=
  match F.factors with
  | none => some v
  | some (t, divides) => if divides then I.div t v else I.mul t v

/-- The sum that a term makes with those before it. -/
def total (F : Frame V) (v : V) : Option V :=
  match F.terms with
  | none => some v
  | some s => I.add s v

/-- The term that an operand makes. -/
def context (F : Frame V) (v : V) : Option V := (F.factor I v).bind (F.term I)

/-- The term, once its last operand is read. -/
def closeTerm (F : Frame V) : Option V := F.operand.bind (F.context I)

/-- The sum, once its last operand is read. -/
def closeSum (F : Frame V) : Option V := (F.closeTerm I).bind (F.total I)

/-- Begins the next term. -/
def nextTerm (F : Frame V) : Option (Frame V) :=
  (F.closeSum I).map fun s => ⟨some s, none, [], none⟩

/-- Begins the next factor. -/
def nextFactor (divides : Bool) (F : Frame V) : Option (Frame V) :=
  (F.closeTerm I).map fun t => ⟨F.terms, some (t, divides), [], none⟩

/-- Makes room for an operand: one that stands directly behind another is a factor. -/
def await (F : Frame V) : Option (Frame V) :=
  if F.operand.isNone then some F else F.nextFactor I false

/-- Reads a minus sign, which begins a term behind an operand. -/
def minus (F : Frame V) : Option (Frame V) :=
  (if F.operand.isNone then some F else F.nextTerm I).map fun G =>
    { G with prefixes := .minus :: G.prefixes }

/-- Reads a caret behind an operand. -/
def caret (F : Frame V) : Option (Frame V) :=
  F.operand.map fun b => { F with prefixes := .base b :: F.prefixes, operand := none }

/-- Nothing has been read in the frame. -/
def isStart (F : Frame V) : Bool :=
  F.terms.isNone && F.factors.isNone && F.prefixes.isEmpty && F.operand.isNone

end Frame

namespace Reading

variable (I : Semantics V)

/-- Reads a sign that concerns the innermost sum only. -/
def within (R : Reading V) (read : Frame V → Option (Frame V)) : Option (Reading V) :=
  (read R.frame).map fun F => { R with frame := F }

/-- Reads an operand. -/
def operand (R : Reading V) (v : V) : Option (Reading V) :=
  R.within fun F => (F.await I).map fun G => { G with operand := some v }

/-- Opens a bracket. -/
def openBracket (R : Reading V) (b : Bracket V) : Option (Reading V) :=
  (R.frame.await I).map fun F => ⟨.start, (F, b) :: R.outer⟩

/-- Reads a comma. -/
def endEntry (R : Reading V) : Option (Reading V) :=
  match R.outer with
  | (F, .call name args) :: outer =>
    (R.frame.closeSum I).map fun v => ⟨.start, (F, .call name (args ++ [v])) :: outer⟩
  | (F, .table rows row) :: outer =>
    (R.frame.closeSum I).map fun v => ⟨.start, (F, .table rows (row ++ [v])) :: outer⟩
  | _ => none

/-- Reads a closing parenthesis. -/
def endParenthesis (R : Reading V) : Option (Reading V) :=
  match R.outer with
  | (F, .group) :: outer => (R.frame.closeSum I).map fun v => ⟨{ F with operand := some v }, outer⟩
  | (F, .call name args) :: outer =>
    (if R.frame.isStart && args.isEmpty then some []
      else (R.frame.closeSum I).map fun v => args ++ [v]).bind fun args =>
        (I.callByName name args).map fun v => ⟨{ F with operand := some v }, outer⟩
  | _ => none

/-- Reads the end of a row and the beginning of the next. -/
def endRow (R : Reading V) : Option (Reading V) :=
  match R.outer with
  | (F, .table rows row) :: outer =>
    (R.frame.closeSum I).map fun v => ⟨.start, (F, .table (rows ++ [row ++ [v]]) []) :: outer⟩
  | _ => none

/-- Reads the end of a matrix. -/
def endTable (R : Reading V) : Option (Reading V) :=
  match R.outer with
  | (F, .table rows row) :: outer =>
    (R.frame.closeSum I).bind fun v =>
      (I.table (rows ++ [row ++ [v]])).map fun t => ⟨{ F with operand := some t }, outer⟩
  | _ => none

/-- Reads a sign. -/
def step (R : Reading V) : Token → Option (Reading V)
  | .numeral digits => (numeralValue? digits).bind fun q => R.operand I (I.number q)
  | .word name => (I.word name).bind (R.operand I)
  | .imaginaryUnit => R.operand I (I.constant .imaginaryUnit)
  | .emptyTable => (I.table []).bind (R.operand I)
  | .openGroup => R.openBracket I .group
  | .call name => R.openBracket I (.call name [])
  | .openTable => R.openBracket I (.table [] [])
  | .plus => R.within (Frame.nextTerm I)
  | .minus => R.within (Frame.minus I)
  | .times => R.within (Frame.nextFactor I false)
  | .slash => R.within (Frame.nextFactor I true)
  | .caret => R.within Frame.caret
  | .comma => R.endEntry I
  | .close => R.endParenthesis I
  | .nextRow => R.endRow I
  | .closeTable => R.endTable I

/-- Reads signs from the left. -/
def run (R : Reading V) (ts : List Token) : Option (Reading V) := ts.foldlM (step I) R

/-- The value, if no bracket is open. -/
def finish (R : Reading V) : Option V := if R.outer.isEmpty then R.frame.closeSum I else none

end Reading

/-- The value of a text as it is usually read. -/
def reading (I : Semantics V) (cs : List Char) : Option V :=
  (lex cs).bind fun ts => (Reading.run I ⟨.start, []⟩ ts).bind (Reading.finish I)

/-! ### Operations that contexts pass through -/

/-- The first operand may be taken out of the context. -/
def Passes (op : V → V → Option V) (g : V → Option V) : Prop :=
  ∀ ⦃a b t s⦄, op a b = some t → g t = some s → ∃ r, g a = some r ∧ op r b = some s

namespace Passes

variable {op : V → V → Option V} {f g : V → Option V}

theorem some : Passes op some := fun a b t s ht hs => by
  cases hs
  exact ⟨a, rfl, ht⟩

theorem bind (hf : Passes op f) (hg : Passes op g) : Passes op fun v => (f v).bind g := by
  intro a b t s ht hs
  obtain ⟨u, hu, hs⟩ := Option.bind_eq_some_iff.1 hs
  obtain ⟨r, hr, hu⟩ := hf ht hu
  obtain ⟨r', hr', hs⟩ := hg hu hs
  exact ⟨r', Option.bind_eq_some_iff.2 ⟨r, hr, hr'⟩, hs⟩

/-- Operands that are taken from the left may be so behind the context. -/
theorem foldlM (h : Passes op g) {vs : List V} {v t s : V} (ht : vs.foldlM op v = Option.some t)
    (hs : g t = Option.some s) : ∃ r, g v = Option.some r ∧ vs.foldlM op r = Option.some s := by
  induction vs generalizing v with
  | nil =>
    cases ht
    exact ⟨s, hs, rfl⟩
  | cons w vs ih =>
    rw [List.foldlM_cons] at ht
    obtain ⟨u, hu, ht⟩ := Option.bind_eq_some_iff.1 ht
    obtain ⟨r, hr, hfold⟩ := ih ht
    obtain ⟨r', hr', hu⟩ := h hu hr
    exact ⟨r', hr', by rw [List.foldlM_cons]; exact Option.bind_eq_some_iff.2 ⟨r, hu, hfold⟩⟩

end Passes

/-! ### Signs that are read as a value -/

namespace Reading

variable {I : Semantics V} {F G : Frame V} {outer : List (Frame V × Bracket V)}
  {ts us : List Token} {v w t : V}

theorem run_nil (R : Reading V) : R.run I [] = some R := rfl

theorem run_cons (R : Reading V) (u : Token) (us : List Token) :
    R.run I (u :: us) = (R.step I u).bind fun R' => R'.run I us := List.foldlM_cons

theorem run_append (R : Reading V) (ts us : List Token) :
    R.run I (ts ++ us) = (R.run I ts).bind fun R' => R'.run I us := List.foldlM_append

theorem run_append_of_run {R R' : Reading V} (h : R.run I ts = some R') (us : List Token) :
    R.run I (ts ++ us) = R'.run I us := by
  rw [run_append, h, Option.bind_some]

theorem run_cons_of_step {R R' : Reading V} {u : Token} (h : R.step I u = some R')
    (us : List Token) : R.run I (u :: us) = R'.run I us := by
  rw [run_cons, h, Option.bind_some]

/-- The signs are read as an operand. -/
def Operates (I : Semantics V) (ts : List Token) (v : V) : Prop :=
  ∀ (F : Frame V) (outer : List (Frame V × Bracket V)), F.operand = none →
    run I ⟨F, outer⟩ ts = some ⟨{ F with operand := some v }, outer⟩

/-- The signs are read as a part of a term, in any context that the operations pass through. -/
def Reads (I : Semantics V) (ops : List (V → V → Option V)) (ts : List Token) (v : V) : Prop :=
  ∀ (F : Frame V) (outer : List (Frame V × Bracket V)) (s : V), F.operand = none →
    (∀ op ∈ ops, Passes op (F.context I)) → F.context I v = some s →
      ∃ G, run I ⟨F, outer⟩ ts = some ⟨G, outer⟩ ∧ G.terms = F.terms ∧ G.closeTerm I = some s

/-- The signs are read as a sum, or as the end of one. -/
def ReadsSum (I : Semantics V) (ts : List Token) (v : V) : Prop :=
  ∀ (terms : Option V) (outer : List (Frame V × Bracket V)) (s : V),
    Frame.total I ⟨terms, none, [], none⟩ v = some s →
      ∃ G, run I ⟨⟨terms, none, [], none⟩, outer⟩ ts = some ⟨G, outer⟩ ∧ G.closeSum I = some s

/-! ### Steps -/

theorem operand_ne_none (h : G.closeTerm I = some t) : G.operand.isNone = false := by
  obtain ⟨v, hv, -⟩ := Option.bind_eq_some_iff.1 h
  rw [hv]
  rfl

theorem exists_closeTerm (h : G.closeSum I = some w) : ∃ t, G.closeTerm I = some t :=
  have ⟨t, ht, _⟩ := Option.bind_eq_some_iff.1 h
  ⟨t, ht⟩

theorem closeSum_of_closeTerm (hterms : G.terms = F.terms) (h : G.closeTerm I = some t) :
    G.closeSum I = F.total I t := by
  rw [Frame.closeSum, h, Option.bind_some, Frame.total, Frame.total, hterms]

theorem step_minus (h : F.operand = none) : step I ⟨F, outer⟩ minus =
    some ⟨{ F with prefixes := .minus :: F.prefixes }, outer⟩ := by
  obtain ⟨terms, factors, prefixes, operand⟩ := F
  cases h
  rfl

theorem step_caret (v : V) : step I ⟨{ F with operand := some v }, outer⟩ caret =
    some ⟨{ F with prefixes := .base v :: F.prefixes, operand := none }, outer⟩ := rfl

theorem step_plus (h : G.closeSum I = some w) :
    step I ⟨G, outer⟩ plus = some ⟨⟨some w, none, [], none⟩, outer⟩ := by
  change within _ _ = _
  rw [within, Frame.nextTerm, h]
  rfl

theorem nextFactor_eq (h : G.closeTerm I = some t) (divides : Bool) :
    G.nextFactor I divides = some ⟨G.terms, some (t, divides), [], none⟩ := by
  rw [Frame.nextFactor, h]
  rfl

theorem step_times (h : G.closeTerm I = some t) :
    step I ⟨G, outer⟩ times = some ⟨⟨G.terms, some (t, false), [], none⟩, outer⟩ := by
  change within _ _ = _
  rw [within, nextFactor_eq h]
  rfl

theorem step_slash (h : G.closeTerm I = some t) :
    step I ⟨G, outer⟩ slash = some ⟨⟨G.terms, some (t, true), [], none⟩, outer⟩ := by
  change within _ _ = _
  rw [within, nextFactor_eq h]
  rfl

/-- A minus sign behind a term begins the next one. -/
theorem step_minus_of_closeSum (h : G.closeSum I = some w) :
    step I ⟨G, outer⟩ minus = step I ⟨⟨some w, none, [], none⟩, outer⟩ minus := by
  obtain ⟨t, ht⟩ := exists_closeTerm h
  change within _ _ = within _ _
  rw [within, within, Frame.minus, Frame.minus, operand_ne_none ht, if_neg Bool.false_ne_true,
    Frame.nextTerm, h]
  rfl

/-- An operand behind an operand is the next factor. -/
theorem step_of_beginsOperand {u : Token} (hu : u.beginsOperand = true)
    (h : G.closeTerm I = some t) :
    step I ⟨G, outer⟩ u = step I ⟨⟨G.terms, some (t, false), [], none⟩, outer⟩ u := by
  have hawait : G.await I = Frame.await I ⟨G.terms, some (t, false), [], none⟩ := by
    rw [Frame.await, Frame.await, operand_ne_none h, if_neg Bool.false_ne_true, nextFactor_eq h]
    rfl
  have hoperand (v : V) : operand I ⟨G, outer⟩ v =
      operand I ⟨⟨G.terms, some (t, false), [], none⟩, outer⟩ v := by
    simp only [operand, within, hawait]
  have hopen (b : Bracket V) : openBracket I ⟨G, outer⟩ b =
      openBracket I ⟨⟨G.terms, some (t, false), [], none⟩, outer⟩ b := by
    simp only [openBracket, hawait]
  cases u with
  | numeral digits => simp only [step, hoperand]
  | word name => exact congrArg (Option.bind _) (funext hoperand)
  | imaginaryUnit => exact hoperand _
  | emptyTable => exact congrArg (Option.bind _) (funext hoperand)
  | openGroup | call name | openTable => exact hopen _
  | _ => cases hu

/-! ### Operands -/

theorem operand_eq (h : F.operand = none) (v : V) :
    operand I ⟨F, outer⟩ v = some ⟨{ F with operand := some v }, outer⟩ := by
  rw [operand, within, Frame.await, h]
  rfl

theorem openBracket_eq (h : F.operand = none) (b : Bracket V) :
    openBracket I ⟨F, outer⟩ b = some ⟨.start, (F, b) :: outer⟩ := by
  rw [openBracket, Frame.await, h]
  rfl

theorem operates_singleton {u : Token} (h : ∀ R : Reading V, R.step I u = R.operand I v) :
    Operates I [u] v := by
  intro F outer hF
  rw [run_cons, h, operand_eq hF]
  rfl

/-- A number. -/
theorem operates_numeral {digits : List Char} {q : Rat} (h : numeralValue? digits = some q) :
    Operates I [numeral digits] (I.number q) :=
  operates_singleton fun R => by rw [step, h, Option.bind_some]

/-- A sum that begins behind a bracket. -/
theorem ReadsSum.start (h : ReadsSum I ts v) (outer : List (Frame V × Bracket V)) :
    ∃ G, run I ⟨.start, outer⟩ ts = some ⟨G, outer⟩ ∧ G.closeSum I = some v :=
  h none outer v rfl

/-- A sum in parentheses. -/
theorem ReadsSum.group (h : ReadsSum I ts v) : Operates I (openGroup :: (ts ++ [close])) v := by
  intro F outer hF
  obtain ⟨G, hrun, hsum⟩ := h.start ((F, .group) :: outer)
  have hopen : step I ⟨F, outer⟩ openGroup = some ⟨.start, (F, .group) :: outer⟩ :=
    openBracket_eq hF _
  have hclose : step I ⟨G, (F, .group) :: outer⟩ close =
      some ⟨{ F with operand := some v }, outer⟩ := by
    rw [step, endParenthesis, hsum]
    rfl
  rw [run_cons_of_step hopen, run_append_of_run hrun, run_cons_of_step hclose, run_nil]

/-! ### Parts of terms -/

/-- An operand may stand in any context. -/
theorem Operates.reads {ops : List (V → V → Option V)} (h : Operates I ts v) : Reads I ops ts v :=
  fun F outer _ hF _ hs => ⟨_, h F outer hF, rfl, hs⟩

theorem Reads.mono {ops ops' : List (V → V → Option V)} (h : Reads I ops ts v)
    (hsub : ∀ op ∈ ops, op ∈ ops') : Reads I ops' ts v :=
  fun F outer _ hF hpass => h F outer _ hF fun op hop => hpass op (hsub op hop)

/-- A factor may stand in any context. -/
theorem Reads.anywhere {ops : List (V → V → Option V)} (h : Reads I [] ts v) : Reads I ops ts v :=
  h.mono (List.forall_mem_nil _)

theorem context_minus (F : Frame V) (v : V) :
    Frame.context I { F with prefixes := .minus :: F.prefixes } v = (I.neg v).bind (F.context I) := by
  rw [Frame.context, Frame.factor, List.foldlM_cons]
  exact Option.bind_assoc _ _ _

/-- A minus sign. -/
theorem Reads.opposite {ops : List (V → V → Option V)} (h : Reads I ops ts w)
    (hv : I.neg w = some v) (hneg : ∀ op ∈ ops, Passes op I.neg) :
    Reads I ops (minus :: ts) v := by
  intro F outer s hF hpass hs
  have hcontext := funext (context_minus (I := I) F)
  obtain ⟨G, hrun, hterms, hclose⟩ := h { F with prefixes := .minus :: F.prefixes } outer s hF
    (fun op hop => by
      rw [hcontext]
      exact (hneg op hop).bind (hpass op hop))
    (by rw [context_minus, hv, Option.bind_some, hs])
  exact ⟨G, by rw [run_cons_of_step (step_minus hF), hrun], hterms, hclose⟩

/-- A power. -/
theorem Operates.power {b x : V} (hb : Operates I ts b) (hx : Operates I us x)
    (hv : I.power b x = some v) : Reads I [] (ts ++ caret :: us) v := by
  intro F outer s hF _ hs
  refine ⟨{ F with prefixes := .base b :: F.prefixes, operand := some x }, ?_, rfl, ?_⟩
  · rw [run_append_of_run (hb F outer hF), run_cons_of_step (step_caret b), hx _ _ rfl]
  · rw [Frame.closeTerm, Option.bind_some, Frame.context, Frame.factor, List.foldlM_cons]
    change ((I.power b x).bind _).bind _ = _
    rw [hv, Option.bind_some]
    exact hs

/-- A quotient. -/
theorem Reads.quotient {ops : List (V → V → Option V)} {n d : V} (hn : Reads I ops ts n)
    (hd : Reads I [] us d) (hv : I.div n d = some v) (hdiv : I.div ∈ ops) :
    Reads I ops (ts ++ slash :: us) v := by
  intro F outer s hF hpass hs
  -- the denominator divides the numerator in its context
  obtain ⟨r, hr, hs⟩ := hpass _ hdiv hv hs
  obtain ⟨G, hrun, hterms, hclose⟩ := hn F outer r hF hpass hr
  obtain ⟨H, hrun', hterms', hclose'⟩ := hd ⟨G.terms, some (r, true), [], none⟩ outer s rfl
    (List.forall_mem_nil _) hs
  exact ⟨H, by rw [run_append_of_run hrun, run_cons_of_step (step_slash hclose), hrun'],
    hterms'.trans hterms, hclose'⟩

/-- A term alone is a sum. -/
theorem Reads.sum {ops : List (V → V → Option V)} (h : Reads I ops ts v) : ReadsSum I ts v := by
  intro terms outer s hs
  obtain ⟨G, hrun, hterms, hclose⟩ := h ⟨terms, none, [], none⟩ outer v rfl
    (fun _ _ => Passes.some) rfl
  exact ⟨G, hrun, (closeSum_of_closeTerm hterms hclose).trans hs⟩

/-! ### Lists -/

open Expression (listTokens tableTokens)

/-- Entries separated by commas: all but the last are finished. -/
theorem run_listTokens (F : Frame V) (outer : List (Frame V × Bracket V)) {b : List V → Bracket V}
    (hcomma : ∀ {G : Frame V} {v : V} (args : List V), G.closeSum I = some v →
      endEntry I ⟨G, (F, b args) :: outer⟩ = some ⟨.start, (F, b (args ++ [v])) :: outer⟩)
    {tss : List (List Token)} {vs : List V} (h : List.Forall₂ (ReadsSum I) tss vs) (hne : tss ≠ [])
    (args : List V) : ∃ G init w, vs = init ++ [w] ∧ G.closeSum I = some w ∧
      run I ⟨.start, (F, b args) :: outer⟩ (listTokens tss) =
        some ⟨G, (F, b (args ++ init)) :: outer⟩ := by
  induction h generalizing args with
  | nil => exact absurd rfl hne
  | @cons ts v tss vs hts htss ih =>
    obtain ⟨G, hrun, hsum⟩ := hts.start ((F, b args) :: outer)
    cases htss with
    | nil => exact ⟨G, [], v, rfl, hsum, by rw [listTokens, List.intercalate_singleton,
        List.append_nil, hrun]⟩
    | cons hus huss =>
      obtain ⟨H, init, w, hvs, hlast, hrest⟩ := ih (List.cons_ne_nil _ _) (args ++ [v])
      refine ⟨H, v :: init, w, by rw [hvs, List.cons_append], hlast, ?_⟩
      have hstep : step I ⟨G, (F, b args) :: outer⟩ comma = _ := hcomma args hsum
      rw [listTokens, List.intercalate_cons_cons, List.append_assoc, run_append_of_run hrun,
        List.singleton_append, run_cons_of_step hstep]
      rw [listTokens] at hrest
      rw [hrest, List.append_assoc, List.singleton_append]

/-- A function of arguments. -/
theorem operates_call {name : List Char} {tss : List (List Token)} {vs : List V}
    (h : List.Forall₂ (ReadsSum I) tss vs) (hv : I.callByName name vs = some v) :
    Operates I (.call name :: (listTokens tss ++ [close])) v := by
  intro F outer hF
  have hopen : step I ⟨F, outer⟩ (.call name) = some ⟨.start, (F, .call name []) :: outer⟩ :=
    openBracket_eq hF _
  rw [run_cons_of_step hopen]
  by_cases hne : tss = []
  · subst hne
    cases h
    have hclose : step I ⟨.start, (F, .call name []) :: outer⟩ close =
        some ⟨{ F with operand := some v }, outer⟩ := by
      change (I.callByName name []).map _ = _
      rw [hv]
      rfl
    exact (run_cons_of_step hclose _).trans rfl
  · obtain ⟨G, init, w, rfl, hsum, hrun⟩ := run_listTokens F outer (b := .call name)
      (fun args hv => by rw [endEntry, hv]; rfl) h hne []
    have hclose : step I ⟨G, (F, .call name init) :: outer⟩ close =
        some ⟨{ F with operand := some v }, outer⟩ := by
      obtain ⟨t, ht⟩ := exists_closeTerm hsum
      have hstart : G.isStart = false := by rw [Frame.isStart, operand_ne_none ht, Bool.and_false]
      rw [step, endParenthesis, hstart, hsum]
      change (I.callByName name (init ++ [w])).map _ = _
      rw [hv]
      rfl
    rw [run_append_of_run hrun, List.nil_append, run_cons_of_step hclose, run_nil]

/-- Rows of a matrix: all but the last are finished. -/
theorem run_rows (F : Frame V) (outer : List (Frame V × Bracket V))
    {tsss : List (List (List Token))} {rows : List (List V)}
    (h : List.Forall₂ (List.Forall₂ (ReadsSum I)) tsss rows) (hrows : ∀ tss ∈ tsss, tss ≠ [])
    (hne : tsss ≠ []) (done : List (List V)) : ∃ G init row w, rows = init ++ [row ++ [w]] ∧
      G.closeSum I = some w ∧
      run I ⟨.start, (F, .table done []) :: outer⟩ ([nextRow].intercalate (tsss.map listTokens)) =
        some ⟨G, (F, .table (done ++ init) row) :: outer⟩ := by
  induction h generalizing done with
  | nil => exact absurd rfl hne
  | @cons tss vs tsss rows htss htsss ih =>
    obtain ⟨hnonempty, hrows⟩ := List.forall_mem_cons.1 hrows
    obtain ⟨G, row, w, rfl, hsum, hrun⟩ := run_listTokens F outer (b := .table done)
      (fun args hv => by rw [endEntry, hv]; rfl) htss hnonempty []
    cases htsss with
    | nil =>
      refine ⟨G, [], row, w, rfl, hsum, ?_⟩
      rw [List.map_singleton, List.intercalate_singleton, hrun, List.append_nil, List.nil_append]
    | cons hus huss =>
      obtain ⟨H, init, row', w', hvalues, hlast, hrest⟩ :=
        ih hrows (List.cons_ne_nil _ _) (done ++ [row ++ [w]])
      refine ⟨H, (row ++ [w]) :: init, row', w', by rw [hvalues, List.cons_append], hlast, ?_⟩
      have hstep : step I ⟨G, (F, .table done row) :: outer⟩ nextRow =
          some ⟨.start, (F, .table (done ++ [row ++ [w]]) []) :: outer⟩ := by
        rw [step, endRow, hsum]
        rfl
      rw [List.map_cons] at hrest ⊢
      rw [List.map_cons, List.intercalate_cons_cons, List.append_assoc, run_append_of_run hrun,
        List.nil_append, List.singleton_append, run_cons_of_step hstep, hrest, List.append_assoc,
        List.singleton_append]

/-- A matrix. -/
theorem operates_tableTokens {tsss : List (List (List Token))} {rows : List (List V)}
    (h : List.Forall₂ (List.Forall₂ (ReadsSum I)) tsss rows) (hrows : ∀ tss ∈ tsss, tss ≠ [])
    (hv : I.table rows = some v) : Operates I (tableTokens tsss) v := by
  cases h with
  | nil => exact operates_singleton fun R => by rw [step, hv, Option.bind_some]
  | cons htss htsss =>
    intro F outer hF
    obtain ⟨G, init, row, w, hvalues, hsum, hrun⟩ := run_rows F outer
      (.cons htss htsss) hrows (List.cons_ne_nil _ _) []
    have hopen : step I ⟨F, outer⟩ openTable = some ⟨.start, (F, .table [] []) :: outer⟩ :=
      openBracket_eq hF _
    have hclose : step I ⟨G, (F, .table init row) :: outer⟩ closeTable =
        some ⟨{ F with operand := some v }, outer⟩ := by
      rw [step, endTable, hsum]
      change (I.table (init ++ [row ++ [w]])).map _ = _
      rw [← hvalues, hv]
      rfl
    rw [tableTokens, List.isEmpty_cons, if_neg Bool.false_ne_true, run_cons_of_step hopen,
      run_append_of_run hrun, List.nil_append, run_cons_of_step hclose, run_nil]

end Reading

end Resolvent

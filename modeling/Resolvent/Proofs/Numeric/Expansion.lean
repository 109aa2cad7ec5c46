import Resolvent.Numeric.Evaluation
import Resolvent.Proofs.Expression.Unfolded
import Resolvent.Proofs.Expression.Layered

/-!
# Evaluation commutes with expansion

Expansion follows definitions by putting expressions in the places of symbols, evaluation by carrying
the values of arguments along.  Both come to the same (`Expression.evaluate_expand`): the value of an
expression is that of the expanded expression, where no definitions are left, and not only up to
rounding, since the same operations are done in the same order.  So what is sampled where an equation
is solved approximately is the function that the equation was classified by.

The parameters of the two are related throughout: where expansion has an expression for a parameter,
evaluation has the value of that expression, and below all parameters the unknown
(`Expression.Simulates`).  The unknown must not have a value that is put in its place.  Sums and
products must have several members, as stored ones have, because the sum that zero and a term make
may differ from the term by the sign of a zero.
-/

namespace Resolvent

namespace Expression

/-! ### Values of operands -/

/-- The value of a regular expression, given those of its operands. -/
def combine (p : Preferences) : Expression → List Complex → Complex
  | integer n, _ => Complex.ofReal (Double.ofInteger n)
  | fraction q, _ => Complex.ofReal (Double.ofRational q)
  | float bits, _ => Complex.ofReal (Float.ofBits bits)
  | constant .pi, _ => Complex.ofReal piFloat
  | constant .e, _ => Complex.ofReal eFloat
  | constant .imaginaryUnit, _ => Complex.i
  | sum _, zs => Complex.sum zs
  | product _, zs => Complex.product zs
  | power _ _, [a, b] => Complex.power p.complexFormat a b
  | opposite _, [a] => Complex.neg a
  | quotient _ _, [n, d] => if d.isZero then Complex.nan else Complex.div n d
  | apply code _, zs => Complex.applyCode p.angleUnit p.complexFormat code zs
  | _, _ => Complex.nan

section Combine

variable {env : Surroundings} {nested : Bindings → Expression → Complex} {scope : Bindings}
  {e : Expression}

theorem evaluateAllWith_eq_map (es : List Expression) :
    evaluateAllWith env nested scope es = es.map (evaluateWith env nested scope) := by
  induction es with
  | nil => rfl
  | cons e es ih => rw [evaluateAllWith, ih, List.map_cons]

/-- The value of a regular expression is computed from those of its operands. -/
theorem evaluateWith_of_isRegular (he : e.isRegular = true) :
    evaluateWith env nested scope e =
      e.combine env.preferences (e.operands.map (evaluateWith env nested scope)) := by
  cases e with
  | symbol | call | matrix => cases he
  | sum args | product args | apply code args =>
    simp only [evaluateWith, operands, combine, evaluateAllWith_eq_map]
  | constant c => cases c <;> rfl
  | _ => rfl

/-- Sums and products of several members, as stored ones are. -/
def Several (e : Expression) : Prop :=
  ∀ es, (sum es).Within e ∨ (product es).Within e → 2 ≤ es.length

theorem Several.operand {c : Expression} (he : e.Several) (hc : c ∈ e.operands) : c.Several :=
  fun es h => he es (h.imp (.operand hc) (.operand hc))

/-- What is put together from several operands is evaluated like the expression of its kind. -/
theorem evaluateWith_rebuild (he : e.isRegular = true) (hseveral : e.Several) {ts : List Expression}
    (hlength : ts.length = e.operands.length) :
    evaluateWith env nested scope (e.rebuild ts) =
      e.combine env.preferences (ts.map (evaluateWith env nested scope)) := by
  cases e with
  | symbol | call | matrix => cases he
  | sum args =>
    match ts, hlength ▸ hseveral args (.inl .self) with
    | a :: b :: ts, _ => exact evaluateWith_of_isRegular (e := sum (a :: b :: ts)) rfl
  | product args =>
    match ts, hlength ▸ hseveral args (.inr .self) with
    | a :: b :: ts, _ => exact evaluateWith_of_isRegular (e := product (a :: b :: ts)) rfl
  | power a b | quotient a b =>
    obtain ⟨a, b, rfl⟩ := List.length_eq_two.1 hlength
    exact evaluateWith_of_isRegular rfl
  | opposite a =>
    obtain ⟨a, rfl⟩ := List.length_eq_one_iff.1 hlength
    exact evaluateWith_of_isRegular (e := opposite a) rfl
  | apply code args => exact evaluateWith_of_isRegular (e := apply code ts) rfl
  | constant c =>
    obtain rfl := List.eq_nil_of_length_eq_zero hlength
    cases c <;> rfl
  | _ =>
    obtain rfl := List.eq_nil_of_length_eq_zero hlength
    rfl

end Combine

/-! ### Simulation -/

section Simulation

variable {value : Expression → Complex} {unknown : Nat} {x : Complex}

/-- The values of the parameters, and below them that of the unknown. -/
def bindings (value : Expression → Complex) (unknown : Nat) (x : Complex) (scope : Arguments) :
    Bindings :=
  scope.map (fun p => (p.1, value p.2)) ++ [(unknown, x)]

theorem lookup_bindings (scope : Arguments) (id : Nat) :
    (bindings value unknown x scope).lookup id =
      ((scope.lookup id).map value).or (List.lookup id [(unknown, x)]) := by
  unfold bindings
  rw [List.lookup_append]
  congr 1
  induction scope with
  | nil => rfl
  | cons p scope ih =>
    rw [List.map_cons, List.lookup_cons, List.lookup_cons, ih]
    cases id == p.1 <;> rfl

/-- Where the one function unfolds an expression, the other one gives the value of what comes of it,
with the values of the parameters. -/
def Simulates (value : Expression → Complex) (unknown : Nat) (x : Complex)
    (unfolded : Arguments → Expression → Except Obstacle Expression)
    (nested : Bindings → Expression → Complex) : Prop :=
  ∀ scope e t, e.Several → unfolded scope e = .ok t →
    nested (bindings value unknown x scope) e = value t

end Simulation

end Expression

/-- All values and bodies have sums and products of several members. -/
structure Definitions.Several (Δ : Definitions) : Prop where
  value : ∀ id v, Δ.value? id = some v → v.Several
  body : ∀ name d, Δ.function? name = some d → d.2.Several

namespace Expression

section Simulation

variable {Δ : Definitions} {mode mode' : Mode} {p : Preferences} {unknown : Nat} {x : Complex}
  {unfolded : Arguments → Expression → Except Obstacle Expression}
  {nested nested' : Bindings → Expression → Complex} {scope : Arguments}

/-- The value of an expression where nothing is defined and the unknown is bound to a number. -/
def plainValue (mode : Mode) (p : Preferences) (nested : Bindings → Expression → Complex)
    (unknown : Nat) (x : Complex) : Expression → Complex :=
  evaluateWith ⟨{}, mode, p⟩ nested [(unknown, x)]

theorem plainValue_symbol (id : Nat) : plainValue mode' p nested' unknown x (symbol id) =
    (List.lookup id [(unknown, x)]).getD Complex.nan := by
  simp only [plainValue, evaluateWith, evaluateSymbol]
  rcases List.lookup id [(unknown, x)] with - | z
  · simp
  · rfl

theorem evaluateSymbol_simulates
    (h : Simulates (plainValue mode' p nested' unknown x) unknown x unfolded nested)
    (hΔ : Δ.Several) (hunknown : mode = .replaceAll → Δ.value? unknown = none) {id : Nat}
    {t : Expression} (ht : unfoldSymbol Δ mode unfolded scope id = .ok t) :
    evaluateSymbol ⟨Δ, mode, p⟩ nested
        (bindings (plainValue mode' p nested' unknown x) unknown x scope) id =
      plainValue mode' p nested' unknown x t := by
  unfold unfoldSymbol at ht
  unfold evaluateSymbol
  rw [lookup_bindings]
  rcases hlookup : scope.lookup id with - | e <;> rw [hlookup] at ht
  · rw [Option.map_none, Option.none_or]
    dsimp only at ht ⊢
    rcases hv : (if mode = .replaceAll then Δ.value? id else none) with - | v <;> rw [hv] at ht
    · cases ht
      rw [plainValue_symbol]
      rcases List.lookup id [(unknown, x)] with - | z <;> rfl
    · obtain ⟨hmode, hvalue⟩ := Option.ite_none_right_eq_some.1 hv
      -- the unknown is not put in the place of a symbol that has a value
      have hid : id ≠ unknown := by
        rintro rfl
        cases hvalue.symm.trans (hunknown hmode)
      rw [List.lookup_cons, beq_false_of_ne hid, List.lookup_nil]
      exact h scope v t (hΔ.value id v hvalue) ht
  · cases ht
    rfl

theorem evaluateCall_simulates
    (h : Simulates (plainValue mode' p nested' unknown x) unknown x unfolded nested)
    (hΔ : Δ.Several) {name : Nat} {v t : Expression}
    (ht : unfoldCall Δ unfolded scope name v = .ok t) :
    evaluateCall ⟨Δ, mode, p⟩ nested
        (bindings (plainValue mode' p nested' unknown x) unknown x scope) name
        (plainValue mode' p nested' unknown x v) =
      plainValue mode' p nested' unknown x t := by
  obtain ⟨parameter, body, hbody, ht⟩ := unfoldCall_eq_ok_iff.1 ht
  have hnested := h _ body t (hΔ.body name _ hbody) ht
  unfold evaluateCall
  simp only [hbody]
  cases parameter <;> exact hnested

theorem Simulates.evaluateWith
    (h : Simulates (plainValue mode' p nested' unknown x) unknown x unfolded nested)
    (hΔ : Δ.Several) (hunknown : mode = .replaceAll → Δ.value? unknown = none) :
    Simulates (plainValue mode' p nested' unknown x) unknown x (unfoldWith Δ mode unfolded)
      (evaluateWith ⟨Δ, mode, p⟩ nested) := by
  intro scope e t he ht
  refine unfoldWith_induction (P := fun e t => e.Several →
    Expression.evaluateWith ⟨Δ, mode, p⟩ nested
      (bindings (plainValue mode' p nested' unknown x) unknown x scope) e =
        plainValue mode' p nested' unknown x t)
    (fun id t ht _ => evaluateSymbol_simulates h hΔ hunknown ht)
    (fun name a v t hv _ ht he => ?_) (fun e ts hregular hts he => ?_) ht he
  · rw [Expression.evaluateWith, hv (he.operand List.mem_cons_self)]
    exact evaluateCall_simulates h hΔ ht
  · -- the operands have equal values, from which the two are computed alike
    have hvalues : e.operands.map (Expression.evaluateWith ⟨Δ, mode, p⟩ nested
        (bindings (plainValue mode' p nested' unknown x) unknown x scope)) =
          ts.map (plainValue mode' p nested' unknown x) := by
      rw [← List.forall₂_eq_eq_eq, List.forall₂_map_left_iff, List.forall₂_map_right_iff]
      have hoperands := (List.forall₂_and_left (p := Several) _ _).2
        ⟨fun _ hc => he.operand hc, hts⟩
      exact hoperands.imp fun _ _ ⟨hc, hct⟩ => hct hc
    rw [evaluateWith_of_isRegular hregular, hvalues]
    exact (evaluateWith_rebuild hregular he hts.length_eq.symm).symm

theorem simulates_evaluateAt (hΔ : Δ.Several)
    (hunknown : mode = .replaceAll → Δ.value? unknown = none) (depth : Nat) :
    Simulates (plainValue mode' p nested' unknown x) unknown x (unfoldAt Δ mode depth)
      (evaluateAt ⟨Δ, mode, p⟩ depth) := by
  induction depth with
  | zero => exact Simulates.evaluateWith nofun hΔ hunknown
  | succ depth ih => exact ih.evaluateWith hΔ hunknown

/-- An expression has the value of what it unfolds to. -/
theorem evaluate_unfold (hΔ : Δ.Several) (hunknown : mode = .replaceAll → Δ.value? unknown = none)
    {e t : Expression} (he : e.Several) (ht : e.unfold Δ mode = .ok t) (x : Float) :
    e.evaluate ⟨Δ, mode, p⟩ unknown x = t.evaluate ⟨{}, mode', p⟩ unknown x :=
  let plain := plainValue mode' p (evaluateAt ⟨{}, mode', p⟩ 31) unknown (Complex.ofReal x)
  have h : Simulates plain unknown (Complex.ofReal x) (unfoldAt Δ mode maxSubstitutionDepth)
      (evaluateAt ⟨Δ, mode, p⟩ maxSubstitutionDepth) :=
    simulates_evaluateAt hΔ hunknown maxSubstitutionDepth
  h [] e t he ht

end Simulation

/-! ### Stored expressions -/

section Stored

variable {A B : Arena} {Γ : Context Handle} {h k : Handle} {mode : Mode} {s : Encounters}

theorem several_of_read? (hA : A.Faithful) {depth : Nat} {e : Expression}
    (he : A.read? depth h = some e) : e.Several := by
  induction depth generalizing h e with
  | zero => cases he
  | succ depth ih =>
    obtain ⟨n, hn, he⟩ := Option.bind_eq_some_iff.1 he
    obtain ⟨hchildren, hnode⟩ := Arena.children_of_assemble? he
    have hproper := hA.proper h n hn
    -- a sum or product among the parts is the node itself, which is proper, or a part of an operand
    intro es hes
    have hcases : e = sum es ∨ e = product es ∨ ∃ c ∈ e.operands,
        (sum es).Within c ∨ (product es).Within c := by
      rcases hes with hes | hes <;> rcases within_iff.1 hes with rfl | ⟨c, hc, hes⟩
      · exact .inl rfl
      · exact .inr (.inr ⟨c, hc, .inl hes⟩)
      · exact .inr (.inl rfl)
      · exact .inr (.inr ⟨c, hc, .inr hes⟩)
    have hlength : n.children.length = e.operands.length := by
      simpa using congrArg List.length (mapM_eq_some_iff.1 hchildren)
    rcases hcases with rfl | rfl | ⟨c, hc, hes⟩
    · rw [← hnode] at hproper
      exact hlength ▸ hproper
    · rw [← hnode] at hproper
      exact hlength ▸ hproper
    · obtain ⟨k, -, hk⟩ := exists_of_mem_mapM hchildren hc
      exact ih hk es hes

theorem several_of_faithful (hA : A.Faithful) (h : Handle) : (A.expression h).Several := by
  unfold Arena.expression
  rcases he : A.expression? h with - | e
  · rintro es (hes | hes) <;> rcases within_iff.1 hes with heq | ⟨c, hc, -⟩ <;>
      first | cases heq | cases hc
  · exact several_of_read? hA he

theorem several_definitions (hA : A.Faithful) (Γ : Context Handle) :
    (Γ.definitions A).Several where
  value id v hv := by
    rw [value?_definitions] at hv
    obtain ⟨h, -, rfl⟩ := Option.map_eq_some_iff.1 hv
    exact several_of_faithful hA h
  body name d hd := by
    rw [function?_definitions] at hd
    obtain ⟨d, -, rfl⟩ := Option.map_eq_some_iff.1 hd
    exact several_of_faithful hA d.2

theorem definitions_empty (B : Arena) : ({} : Context Handle).definitions B = {} := by
  unfold Context.definitions
  congr 1 <;> (funext id; cases B.symbolName? id <;> rfl)

/-- Where a stored expression is expanded, its value with the definitions of the context is that of
the expanded expression without any, for every number that an unknown without a stored value stands
for. -/
theorem evaluate_expand (hA : A.Faithful)
    (hrun : (A.expression h).expand (Γ.definitions A) mode (A, {}) = (.ok k, (B, s)))
    {unknown : Nat} (hunknown : mode = .replaceAll → (Γ.definitions A).value? unknown = none)
    (p : Preferences) (x : Float) :
    (A.expression h).evaluate ⟨Γ.definitions A, mode, p⟩ unknown x =
      (B.expression k).evaluate ⟨({} : Context Handle).definitions B, mode, p⟩ unknown x := by
  obtain ⟨t, ht, hk, -⟩ := expand_of_layered hA.layered hrun
  rw [hk.expression_eq, definitions_empty]
  exact evaluate_unfold (several_definitions hA Γ) hunknown (several_of_faithful hA h) ht x

/-! ### A call of a function -/

/-- The nodes of the call `f(x)`, of the body `t + 1` and of `x + 1`. -/
def successorArena : Arena := .ofNodes ["x", "t", "f"]
  [.symbol 0, .integer 1, .symbol 1, .sum [⟨2⟩, ⟨1⟩], .call 2 ⟨0⟩, .sum [⟨0⟩, ⟨1⟩]]

/-- The definition `f(t) = t + 1`. -/
def successorContext : Context Handle := ({} : Context Handle).define "f" (.function "t" ⟨3⟩)

theorem faithful_successorArena : successorArena.Faithful :=
  .ofNodes (by decide) (by decide) (by simp [Node.Proper, Symbols.maxId]) (by decide)

theorem function?_successorContext :
    (successorContext.definitions successorArena).function? 2 =
      some (some 1, .sum [.symbol 1, .integer 1]) := by
  have hparameter : successorArena.symbolId? "t" = some 1 := Symbols.id?_of_name? (by decide) rfl
  exact congrArg (fun parameter => some (parameter, _)) hparameter

theorem expand_successorArena :
    (successorArena.expression ⟨4⟩).expand (successorContext.definitions successorArena) .replaceAll
      (successorArena, {}) = (.ok ⟨5⟩, (successorArena, { met := [0], arguments := [0] })) := by
  have hintern : ∀ {k n}, successorArena.node? k = some n →
      Build.intern n successorArena = (.ok k, successorArena) := fun hk =>
    Build.intern_of_node? (.ofNodes (by decide) (by decide) (by decide)) hk
  have hx := hintern (k := ⟨0⟩) (n := .symbol 0) rfl
  have hone := hintern (k := ⟨1⟩) (n := .integer 1) rfl
  have hsum := hintern (k := ⟨5⟩) (n := .sum [⟨0⟩, ⟨1⟩]) rfl
  have hvalue : (successorContext.definitions successorArena).value? 0 = none := rfl
  have hmeet : ExpandM.meet 0 (successorArena, {}) = (.ok (), (successorArena, { met := [0] })) :=
    rfl
  have hdepend : ExpandM.dependOn ⟨0⟩ (successorArena, { met := [0] }) =
      (.ok (), (successorArena, { met := [0], arguments := [0] })) := rfl
  have hbody : ∀ x, expandAt (successorContext.definitions successorArena) .replaceAll 31
      [(1, ⟨0⟩)] (sum [symbol 1, integer 1]) (successorArena, x) = (.ok ⟨5⟩, (successorArena, x)) := by
    intro x
    change expandWith _ _ _ _ (sum [symbol 1, integer 1]) _ = _
    have hsumOf : Build.sum [⟨0⟩, ⟨1⟩] = Build.intern (.sum [⟨0⟩, ⟨1⟩]) := rfl
    simp [-bind_pure_comp, expandWith, expandAllWith, expandSymbol, bind_run, pure_run,
      ExpandM.build, Build.integer, hone, hsumOf, hsum]
  change expandWith _ _ (expandAt _ _ 31) [] (call 2 (symbol 0)) _ = _
  simp [-bind_pure_comp, expandWith, expandSymbol, expandCall, bind_run, ExpandM.build,
    List.lookup_nil, hvalue, hmeet, hx, hdepend, function?_successorContext, hbody]

/-- Where `x` is one half, the call `f(x)` has the value of `x + 1`. -/
theorem evaluate_expand_successorArena :
    let Δ := successorContext.definitions successorArena
    (successorArena.Faithful ∧
      (successorArena.expression ⟨4⟩).expand Δ .replaceAll (successorArena, {}) =
        (.ok ⟨5⟩, (successorArena, { met := [0], arguments := [0] })) ∧
      Δ.value? 0 = none) ∧
    (call 2 (symbol 0)).evaluate ⟨Δ, .replaceAll, {}⟩ 0 0.5 =
      (sum [symbol 0, integer 1]).evaluate
        ⟨({} : Context Handle).definitions successorArena, .replaceAll, {}⟩ 0 0.5 := by
  have hvalue : (successorContext.definitions successorArena).value? 0 = none := rfl
  exact ⟨⟨faithful_successorArena, expand_successorArena, hvalue⟩,
    evaluate_expand faithful_successorArena expand_successorArena (fun _ => hvalue) {} 0.5⟩

end Stored

end Expression

end Resolvent

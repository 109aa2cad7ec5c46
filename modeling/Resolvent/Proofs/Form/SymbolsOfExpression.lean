import Resolvent.Form.Approximation
import Resolvent.Form.OfExpression
import Resolvent.Proofs.Expression.Along
import Resolvent.Proofs.Expression.Identifiers
import Resolvent.Proofs.Form.Radical
import Resolvent.Proofs.Form.Symbols

/-!
# Symbols between expressions and forms

The form of an expression has no symbols but those of the expression (`Expression.form_symbolsIn`),
and the expression that shows a form has no identifiers but the symbols of the form
(`Form.display_identifiersIn`).  The exact roots and values of functions that come in between are
made of their arguments and of constants.
-/

namespace Resolvent

variable {S : Nat → Prop}

namespace Form

variable {f g : Form} {p : Preferences}

/-! ### Roots -/

theorem symbolsIn_positiveRoot (q : Rat) (n : Nat) : (positiveRoot q n).SymbolsIn S := by
  unfold positiveRoot
  split
  · dsimp only
    split
    · exact symbolsIn_ofRat _
    · refine symbolsIn_ofFactors _ fun x hx => ?_
      rw [List.mem_singleton.1 hx]
      exact Atom.symbolsIn_root _ _
  · exact symbolsIn_ofAtom (Atom.symbolsIn_radical.2 (symbolsIn_ofRat _))

theorem SymbolsIn.radical (h : f.SymbolsIn S) (n : Nat) : (radical f n).SymbolsIn S :=
  symbolsIn_ofAtom (Atom.symbolsIn_radical.2 h)

theorem symbolsIn_sixthTurn : sixthTurn.SymbolsIn S :=
  (symbolsIn_one.add ((symbolsIn_positiveRoot 3 2).mul symbolsIn_imaginaryUnit)).scale _

theorem symbolsIn_rationalRoot {format : ComplexFormat} {q : Rat} {n : Nat}
    (h : rationalRoot format q n = .ok g) : g.SymbolsIn S := by
  have hroot : (positiveRoot (Rational.magnitude q) n).SymbolsIn S := symbolsIn_positiveRoot _ _
  unfold rationalRoot at h
  dsimp only at h
  split at h
  · cases h
    exact hroot
  · split at h
    · split at h
      · cases h
        exact hroot.neg
      · cases h
    · split at h
      · cases h
        exact hroot.mul symbolsIn_imaginaryUnit
      · split at h
        · cases h
          exact hroot.mul symbolsIn_sixthTurn
        · cases h
          exact (symbolsIn_ofRat _).radical _

theorem symbolsIn_squareRootOfSum? {a b : Rat} (h : squareRootOfSum? a b = some g) :
    g.SymbolsIn S := by
  unfold squareRootOfSum? at h
  split at h
  · cases h
  · cases h
    refine (symbolsIn_positiveRoot _ _).add (SymbolsIn.mul ?_ symbolsIn_imaginaryUnit)
    split
    · exact (symbolsIn_positiveRoot _ _).neg
    · exact symbolsIn_positiveRoot _ _

theorem SymbolsIn.generalRoot (h : f.SymbolsIn S) {n : Nat} (hg : generalRoot p f n = .ok g) :
    g.SymbolsIn S := by
  unfold Form.generalRoot at hg
  dsimp only at hg
  split at hg
  · cases hg
    exact h.radical n
  · split at hg
    · split at hg
      · cases hg
      · split at hg
        · cases hg
          exact (h.neg.radical n).mul symbolsIn_imaginaryUnit
        · cases hg
          exact h.radical n
    · split at hg
      · cases hg
      · cases hg
        exact h.radical n

theorem SymbolsIn.constantPower (h : f.SymbolsIn S) {n : Nat} {q : Rat}
    {factors : List (Atom × Int)} (hf : f.constantPower? n = some (q, factors)) :
    ∀ x ∈ factors, x.1.SymbolsIn S := by
  obtain ⟨m, hm, rfl, -⟩ := constantPower?_eq_some hf
  intro x hx
  obtain ⟨y, hy, rfl⟩ := List.mem_map.1 hx
  refine symbolsIn_iff.1 h (m, q) ?_ y hy
  rw [terms_of_singleTerm? hm]
  exact List.mem_singleton_self _

theorem SymbolsIn.otherRoot (h : f.SymbolsIn S) {n : Nat} (hg : otherRoot p f n = .ok g) :
    g.SymbolsIn S := by
  unfold Form.otherRoot at hg
  split at hg
  · next hf =>
    obtain ⟨r, hr, rfl⟩ := Except.map_eq_ok_iff.1 hg
    exact (symbolsIn_rationalRoot hr).mul (symbolsIn_ofFactors 1 (h.constantPower hf))
  · exact h.generalRoot hg

theorem SymbolsIn.root (h : f.SymbolsIn S) {n : Nat} (hg : f.root p n = .ok g) :
    g.SymbolsIn S := by
  unfold Form.root at hg
  split at hg
  · cases hg
    exact h
  · split at hg
    · exact symbolsIn_rationalRoot hg
    · unfold irrationalRoot at hg
      split at hg
      · exact h.otherRoot hg
      · split at hg
        · cases hg
        · split at hg
          · next hr =>
            cases hg
            exact symbolsIn_squareRootOfSum? hr
          · exact h.otherRoot hg

/-! ### Exact values of functions -/

theorem symbolsIn_ofHalfTurns (unit : AngleUnit) (q : Rat) : (ofHalfTurns unit q).SymbolsIn S := by
  unfold ofHalfTurns
  split
  · exact symbolsIn_pi.scale q
  · exact symbolsIn_ofRat _

theorem symbolsIn_sqrtOf (n : Nat) : (sqrtOf n).SymbolsIn S :=
  symbolsIn_ofFactors 1 fun x hx => by
    rw [List.mem_singleton.1 hx]
    exact Atom.symbolsIn_root _ _

theorem symbolsIn_sine? {k : Int} (h : sine? k = some g) : g.SymbolsIn S := by
  have hsmall : ∀ {j : Nat} {s : Form}, sineUpTo6? j = some s → s.SymbolsIn S := by
    intro j s hs
    unfold sineUpTo6? at hs
    split at hs
    · cases hs
      exact symbolsIn_zero
    · cases hs
      exact symbolsIn_ofRat _
    · cases hs
      exact (symbolsIn_sqrtOf 2).scale _
    · cases hs
      exact (symbolsIn_sqrtOf 3).scale _
    · cases hs
      exact symbolsIn_one
    · cases hs
  obtain ⟨s, hs, rfl⟩ := Option.map_eq_some_iff.1 h
  split
  · exact hsmall hs
  · exact (hsmall hs).neg

theorem symbolsIn_tangent? {k : Int} (h : tangent? k = some (some g)) : g.SymbolsIn S := by
  unfold tangent? at h
  split at h
  · next hs hc => exact (symbolsIn_sine? hs).divide (symbolsIn_sine? hc) (Option.some.inj h)
  · cases h

theorem SymbolsIn.exponential (h : f.SymbolsIn S) : (exponential f).SymbolsIn S := by
  have hkept : (ofAtom (.power Form.e f)).SymbolsIn S :=
    symbolsIn_ofAtom (Atom.symbolsIn_power.2 ⟨symbolsIn_e, h⟩)
  have hpower : ∀ {a : Atom} {k : Int}, a.SymbolsIn S → (ofFactors 1 [(a, k)]).SymbolsIn S :=
    fun ha => symbolsIn_ofFactors 1 fun x hx => by rwa [List.mem_singleton.1 hx]
  unfold Form.exponential
  dsimp only
  split
  · exact symbolsIn_one
  · split
    · split
      · exact hpower Atom.symbolsIn_e
      · exact hkept
    · split
      · split
        · exact hpower Atom.symbolsIn_imaginaryUnit
        · exact hkept
      · exact hkept
    · exact hkept

theorem symbolsIn_logarithm? (h : f.logarithm? = some g) : g.SymbolsIn S := by
  unfold logarithm? at h
  split at h
  · cases h
    exact symbolsIn_zero
  · split at h
    · split at h
      · cases h
        exact symbolsIn_ofRat _
      · cases h
    · cases h

theorem symbolsIn_decimalLogarithm? (h : f.decimalLogarithm? = some g) : g.SymbolsIn S := by
  unfold decimalLogarithm? at h
  split at h
  · obtain ⟨k, -, rfl⟩ := Option.map_eq_some_iff.1 h
    exact symbolsIn_ofRat _
  · cases h

theorem SymbolsIn.absolute (h : f.SymbolsIn S) (hg : absolute? p f = some g) : g.SymbolsIn S := by
  unfold absolute? at hg
  split at hg
  · cases hg
    exact symbolsIn_ofRat _
  · next re im _ hs =>
    obtain ⟨hre, him⟩ := h.split hs
    split at hg
    · unfold magnitudeOfReal? at hg
      dsimp only at hg
      split at hg
      · cases hg
        split
        · exact h.neg
        · exact h
      · cases hg
    · rcases hr : Form.root p (Form.add (Form.mul re re) (Form.mul im im)) 2 with e | r
      · simp [hr, Except.toOption] at hg
      · rw [hr] at hg
        cases hg
        exact ((hre.mul hre).add (him.mul him)).root hr
  · cases hg

theorem SymbolsIn.rootOrUnreal (h : f.SymbolsIn S) {n : Nat} (hg : rootOrUnreal p f n = .ok g) :
    g.SymbolsIn S :=
  h.root (rootOrUnreal_eq_ok_iff.1 hg)

/-! ### Functions and powers -/

theorem SymbolsIn.power (hf : f.SymbolsIn S) (hg : g.SymbolsIn S) {r : Form}
    (hr : power p f g = .ok r) : r.SymbolsIn S := by
  unfold Form.power at hr
  split at hr
  · cases hr
    exact symbolsIn_ofAtom (Atom.symbolsIn_power.2 ⟨hf, hg⟩)
  · next q _ =>
    have hkept : (ofAtom (.power f (ofRat q))).SymbolsIn S :=
      symbolsIn_ofAtom (Atom.symbolsIn_power.2 ⟨hf, symbolsIn_ofRat _⟩)
    split at hr
    · split at hr
      · cases hr
        exact symbolsIn_zero
      · cases hr
    · obtain ⟨k, -, rfl⟩ | ⟨-, -, -, raised, hraised, hroot⟩ | ⟨-, rfl, -⟩ :=
        rationalPower_inversion hr
      · rcases hk : f.pow? k with - | r
        · exact hkept
        · exact hf.pow hk
      · exact (hf.pow hraised).rootOrUnreal hroot
      · exact hkept

theorem SymbolsIn.rootBy (hf : f.SymbolsIn S) (hg : g.SymbolsIn S) {r : Form}
    (hr : rootBy p f g = .ok r) : r.SymbolsIn S := by
  unfold Form.rootBy at hr
  split at hr
  · exact hf.rootOrUnreal hr
  · split at hr
    · next i hi => exact hf.power (hg.inverse hi) hr
    · cases hr

theorem symbolsIn_angleFunction? {unit : AngleUnit} {b : Builtin}
    (h : angleFunction? unit b f = .ok (some g)) : g.SymbolsIn S := by
  unfold angleFunction? at h
  split at h
  · cases h
  · split at h
    · exact symbolsIn_sine? (Except.ok.inj h)
    · exact symbolsIn_sine? (Except.ok.inj h)
    · split at h
      · cases h
      · next ht =>
        cases h
        exact symbolsIn_tangent? ht
      · cases h

theorem symbolsIn_inverseAngleFunction? {unit : AngleUnit} {b : Builtin}
    (h : inverseAngleFunction? unit b f = some g) : g.SymbolsIn S := by
  obtain ⟨q, -, hq⟩ := Option.bind_eq_some_iff.1 h
  obtain ⟨r, -, rfl⟩ := Option.map_eq_some_iff.1 hq
  exact symbolsIn_ofHalfTurns _ _

theorem SymbolsIn.exactValue {b : Builtin} {rest : List Form} (hf : f.SymbolsIn S)
    (hrest : ∀ x ∈ rest, x.SymbolsIn S) (h : exactValue? p b f rest = .ok (some g)) :
    g.SymbolsIn S := by
  have hlast : (rest.getLast?.getD f).SymbolsIn S := by
    rcases hl : rest.getLast? with - | x
    · exact hf
    · exact hrest x (List.mem_of_getLast? hl)
  cases b with
  | sqrt =>
    obtain ⟨r, hr, heq⟩ := Except.map_eq_ok_iff.1 h
    cases heq
    exact hf.rootOrUnreal hr
  | root =>
    obtain ⟨r, hr, heq⟩ := Except.map_eq_ok_iff.1 h
    cases heq
    exact hf.rootBy hlast hr
  | exp =>
    cases h
    exact hf.exponential
  | ln => exact symbolsIn_logarithm? (Except.ok.inj h)
  | log10 => exact symbolsIn_decimalLogarithm? (Except.ok.inj h)
  | abs => exact hf.absolute (Except.ok.inj h)
  | sin => exact symbolsIn_angleFunction? (b := .sin) h
  | cos => exact symbolsIn_angleFunction? (b := .cos) h
  | tan => exact symbolsIn_angleFunction? (b := .tan) h
  | asin | acos | atan => exact symbolsIn_inverseAngleFunction? (Except.ok.inj h)
  | conj => exact hf.complexConjugate (Except.ok.inj h)
  | re =>
    obtain ⟨⟨re, im⟩, hs, rfl⟩ := Option.map_eq_some_iff.1 (Except.ok.inj h)
    exact (hf.split hs).1
  | im =>
    obtain ⟨⟨re, im⟩, hs, rfl⟩ := Option.map_eq_some_iff.1 (Except.ok.inj h)
    exact (hf.split hs).2

theorem symbolsIn_ofFunction {code : Nat} {args : List Form} (h : ∀ x ∈ args, x.SymbolsIn S)
    (hg : ofFunction p code args = .ok g) : g.SymbolsIn S := by
  unfold ofFunction at hg
  split at hg
  · next x rest b _ =>
    obtain ⟨value, hvalue, rfl⟩ := Except.map_eq_ok_iff.1 hg
    cases value with
    | none => exact symbolsIn_ofAtom (Atom.symbolsIn_apply.2 h)
    | some g =>
      exact (h x List.mem_cons_self).exactValue (fun y hy => h y (List.mem_cons_of_mem _ hy)) hvalue
  · cases hg

theorem symbolsIn_ofConstant (c : Constant) : (ofConstant c).SymbolsIn S := by
  cases c with
  | pi => exact symbolsIn_pi
  | e => exact symbolsIn_e
  | imaginaryUnit => exact symbolsIn_imaginaryUnit

end Form

/-! ### Forms of expressions -/

namespace Expression

variable {p : Preferences}

theorem foldl_symbolsIn {op : Form → Form → Form}
    (hop : ∀ f g, f.SymbolsIn S → g.SymbolsIn S → (op f g).SymbolsIn S) {fs : List Form}
    (hfs : ∀ f ∈ fs, f.SymbolsIn S) {start : Form} (hstart : start.SymbolsIn S) :
    (fs.foldl op start).SymbolsIn S := by
  induction fs generalizing start with
  | nil => exact hstart
  | cons f fs ih =>
    exact ih (fun g hg => hfs g (List.mem_cons_of_mem _ hg))
      (hop start f hstart (hfs f List.mem_cons_self))

mutual

/-- The form of an expression has no symbols but those of the expression. -/
theorem form_symbolsIn : ∀ {e : Expression} {f : Form}, e.IdentifiersIn S → e.form p = .ok f →
    f.SymbolsIn S
  | integer _, f, _, h | fraction _, f, _, h => by
    rw [form] at h
    cases h
    exact Form.symbolsIn_ofRat _
  | float _, f, _, h => by
    rw [form, Form.ofFloat] at h
    split at h
    · cases h
      exact Form.symbolsIn_ofRat _
    · cases h
  | symbol id, f, hS, h => by
    rw [form] at h
    cases h
    exact Form.symbolsIn_ofAtom (Atom.symbolsIn_symbol.2 (identifiersIn_symbol.1 hS))
  | constant c, f, _, h => by
    rw [form] at h
    cases h
    exact Form.symbolsIn_ofConstant c
  | undefined, f, _, h | call _ _, f, _, h | unreal, f, _, h | matrix _ _ _, f, _, h => by
    rw [form] at h
    cases h
  | sum args, f, hS, h => by
    rw [form] at h
    obtain ⟨fs, hfs, rfl⟩ := Except.map_eq_ok_iff.1 h
    exact foldl_symbolsIn (fun _ _ => Form.SymbolsIn.add)
      (forms_symbolsIn (identifiersIn_sum.1 hS) hfs) Form.symbolsIn_zero
  | product args, f, hS, h => by
    rw [form] at h
    obtain ⟨fs, hfs, rfl⟩ := Except.map_eq_ok_iff.1 h
    exact foldl_symbolsIn (fun _ _ => Form.SymbolsIn.mul)
      (forms_symbolsIn (identifiersIn_product.1 hS) hfs) Form.symbolsIn_one
  | opposite a, f, hS, h => by
    rw [form] at h
    obtain ⟨g, hg, rfl⟩ := Except.map_eq_ok_iff.1 h
    exact (form_symbolsIn (identifiersIn_opposite.1 hS) hg).neg
  | quotient a b, f, hS, h => by
    obtain ⟨ha, hb⟩ := identifiersIn_quotient.1 hS
    rw [form] at h
    obtain ⟨n, hn, h⟩ := Except.bind_eq_ok_iff.1 h
    obtain ⟨d, hd, h⟩ := Except.bind_eq_ok_iff.1 h
    split at h
    · next q hq =>
      cases h
      exact (form_symbolsIn ha hn).divide (form_symbolsIn hb hd) hq
    · cases h
  | power a b, f, hS, h => by
    obtain ⟨ha, hb⟩ := identifiersIn_power.1 hS
    rw [form] at h
    obtain ⟨k, hk, h⟩ := Except.bind_eq_ok_iff.1 h
    have hk := form_symbolsIn hb hk
    split at h
    · cases h
      exact hk.exponential
    · obtain ⟨g, hg, h⟩ := Except.bind_eq_ok_iff.1 h
      exact (form_symbolsIn ha hg).power hk h
  | apply code args, f, hS, h => by
    rw [form] at h
    obtain ⟨fs, hfs, h⟩ := Except.bind_eq_ok_iff.1 h
    exact Form.symbolsIn_ofFunction (forms_symbolsIn (identifiersIn_apply.1 hS) hfs) h

theorem forms_symbolsIn : ∀ {es : List Expression} {fs : List Form},
    (∀ e ∈ es, e.IdentifiersIn S) → forms p es = .ok fs → ∀ f ∈ fs, f.SymbolsIn S
  | [], fs, _, h => by
    rw [forms] at h
    cases h
    exact List.forall_mem_nil _
  | e :: es, fs, hS, h => by
    obtain ⟨he, hes⟩ := List.forall_mem_cons.1 hS
    rw [forms] at h
    obtain ⟨f, hf, h⟩ := Except.bind_eq_ok_iff.1 h
    obtain ⟨gs, hgs, h⟩ := Except.bind_eq_ok_iff.1 h
    cases h
    exact List.forall_mem_cons.2 ⟨form_symbolsIn he hf, forms_symbolsIn hes hgs⟩

end

/-! ### Expressions of forms -/

theorem identifiersIn_powerOf {e : Expression} (h : e.IdentifiersIn S) (k : Int) :
    (powerOf e k).IdentifiersIn S := by
  unfold powerOf
  split
  · exact h
  · exact identifiersIn_power.2 ⟨h, identifiersIn_of_eq_nil (by rw [identifiers])⟩

theorem identifiersIn_fractionOf {factors : List Factor} (h : ∀ x ∈ factors, x.1.IdentifiersIn S)
    (q : Rat) : (fractionOf q factors).IdentifiersIn S := by
  have hnumber : ∀ n : Nat, ∀ x ∈ (if n = 1 then [] else [ofRat n]), x.IdentifiersIn S := by
    intro n x hx
    split at hx
    · cases hx
    · rw [List.mem_singleton.1 hx]
      exact identifiersIn_ofRat _
  have hpowers : ∀ (keep : Factor → Bool) (exponent : Factor → Int),
      ∀ x ∈ (factors.filter keep).map fun x => powerOf x.1 (exponent x), x.IdentifiersIn S := by
    intro keep exponent x hx
    obtain ⟨y, hy, rfl⟩ := List.mem_map.1 hx
    exact identifiersIn_powerOf (h y (List.mem_filter.1 hy).1) _
  have hproduct : ∀ (n : Nat) (keep : Factor → Bool) (exponent : Factor → Int),
      (productOf ((if n = 1 then [] else [ofRat n]) ++
        (factors.filter keep).map fun x => powerOf x.1 (exponent x))).IdentifiersIn S :=
    fun n keep exponent => identifiersIn_productOf fun x hx =>
      (List.mem_append.1 hx).elim (hnumber n x) (hpowers keep exponent x)
  unfold fractionOf
  split
  · exact identifiersIn_ofRat q
  · refine identifiersIn_ite (identifiersIn_opposite.2 ?_) ?_
    all_goals
      exact identifiersIn_ite (hproduct _ _ _)
        (identifiersIn_quotient.2 ⟨hproduct _ _ _, hproduct _ _ _⟩)

theorem identifiersIn_sumOfTerms {terms : List (Rat × List Factor)}
    (h : ∀ t ∈ terms, ∀ x ∈ t.2, x.1.IdentifiersIn S) : (sumOfTerms terms).IdentifiersIn S := by
  have hsum : ∀ scale : Rat → Rat, (sumOf ((constantLast terms).map fun t =>
      fractionOf (scale t.1) t.2)).IdentifiersIn S := by
    refine fun scale => identifiersIn_sumOf fun e he => ?_
    obtain ⟨t, ht, rfl⟩ := List.mem_map.1 he
    exact identifiersIn_fractionOf (h t (mem_constantLast ht)) _
  unfold sumOfTerms
  split
  · exact identifiersIn_of_eq_nil (by rw [identifiers])
  · exact identifiersIn_ofRat _
  · dsimp only
    split
    · next d _ => exact identifiersIn_quotient.2 ⟨hsum (· * d), identifiersIn_ofRat _⟩
    · exact hsum id

end Expression

open Expression in
mutual

theorem Atom.expression_identifiersIn : ∀ {a : Atom}, a.SymbolsIn S → a.expression.IdentifiersIn S
  | .symbol id, h => by
    rw [Atom.expression]
    exact identifiersIn_symbol.2 (Atom.symbolsIn_symbol.1 h)
  | .pi, _ | .e, _ | .imaginaryUnit, _ => by
    rw [Atom.expression]
    exact identifiersIn_of_eq_nil (by rw [identifiers])
  | .root _ _, _ => by
    rw [Atom.expression]
    exact identifiersIn_rootOf (identifiersIn_ofRat _) _
  | .radical f n, h => by
    rw [Atom.expression]
    exact identifiersIn_rootOf (Form.expression_identifiersIn (Atom.symbolsIn_radical.1 h)) n
  | .apply _ args, h => by
    rw [Atom.expression]
    exact identifiersIn_apply.2 (Form.expressions_identifiersIn (Atom.symbolsIn_apply.1 h))
  | .power f g, h => by
    obtain ⟨hf, hg⟩ := Atom.symbolsIn_power.1 h
    rw [Atom.expression]
    refine identifiersIn_power.2 ⟨?_, Form.expression_identifiersIn hg⟩
    split
    · exact identifiersIn_of_eq_nil (by rw [identifiers])
    · exact Form.expression_identifiersIn hf
  | .reciprocal f, h => by
    rw [Atom.expression]
    exact identifiersIn_quotient.2 ⟨identifiersIn_of_eq_nil (by rw [identifiers]),
      Form.expression_identifiersIn (Atom.symbolsIn_reciprocal.1 h)⟩

theorem Monomial.factorExpressions_identifiersIn : ∀ {factors : List (Atom × Int)},
    (∀ x ∈ factors, x.1.SymbolsIn S) →
    ∀ y ∈ Monomial.factorExpressions factors, y.1.IdentifiersIn S
  | [], _ => by
    rw [Monomial.factorExpressions]
    exact List.forall_mem_nil _
  | (a, k) :: factors, h => by
    rw [Monomial.factorExpressions]
    exact List.forall_mem_cons.2 ⟨Atom.expression_identifiersIn (h (a, k) List.mem_cons_self),
      Monomial.factorExpressions_identifiersIn fun x hx => h x (List.mem_cons_of_mem _ hx)⟩

theorem Form.expression_identifiersIn : ∀ {f : Form}, f.SymbolsIn S → f.expression.IdentifiersIn S
  | ⟨terms⟩, h => by
    rw [Form.expression]
    exact identifiersIn_sumOfTerms (Form.termExpressions_identifiersIn (Form.symbolsIn_iff.1 h))

theorem Form.termExpressions_identifiersIn : ∀ {terms : List (Monomial × Rat)},
    (∀ t ∈ terms, ∀ x ∈ t.1.factors, x.1.SymbolsIn S) →
    ∀ t ∈ Form.termExpressions terms, ∀ x ∈ t.2, x.1.IdentifiersIn S
  | [], _ => by
    rw [Form.termExpressions]
    exact List.forall_mem_nil _
  | (⟨factors⟩, q) :: terms, h => by
    rw [Form.termExpressions, Monomial.expressions]
    exact List.forall_mem_cons.2
      ⟨Monomial.factorExpressions_identifiersIn (h (⟨factors⟩, q) List.mem_cons_self),
        Form.termExpressions_identifiersIn fun t ht => h t (List.mem_cons_of_mem _ ht)⟩

theorem Form.expressions_identifiersIn : ∀ {fs : List Form},
    (∀ f ∈ fs, f.SymbolsIn S) → ∀ e ∈ Form.expressions fs, e.IdentifiersIn S
  | [], _ => by
    rw [Form.expressions]
    exact List.forall_mem_nil _
  | f :: fs, h => by
    rw [Form.expressions]
    exact List.forall_mem_cons.2 ⟨Form.expression_identifiersIn (h f List.mem_cons_self),
      Form.expressions_identifiersIn fun g hg => h g (List.mem_cons_of_mem _ hg)⟩

end

/-! ### Renditions -/

namespace Form

open Expression

variable {f : Form} {p : Preferences}

theorem imaginaryExpression_identifiersIn (h : f.SymbolsIn S) :
    f.imaginaryExpression.IdentifiersIn S := by
  have hunit : (constant .imaginaryUnit).IdentifiersIn S :=
    identifiersIn_of_eq_nil (by rw [identifiers])
  have hbare : ∀ {g : Form}, g.SymbolsIn S → (if g.isOne then constant .imaginaryUnit
      else productOf [g.expression, constant .imaginaryUnit]).IdentifiersIn S := by
    intro g hg
    split
    · exact hunit
    · exact identifiersIn_productOf (by simpa using ⟨expression_identifiersIn hg, hunit⟩)
  unfold imaginaryExpression
  dsimp only
  split
  · exact identifiersIn_opposite.2 (hbare h.neg)
  · exact hbare h

theorem cartesian_identifiersIn (h : f.SymbolsIn S) : f.cartesian.IdentifiersIn S := by
  unfold cartesian
  split
  · exact expression_identifiersIn h
  · next re im hs =>
    obtain ⟨hre, him⟩ := h.split hs
    split
    · exact expression_identifiersIn h
    · split
      · exact imaginaryExpression_identifiersIn him
      · exact identifiersIn_sumOf (by
          simpa using ⟨expression_identifiersIn hre, imaginaryExpression_identifiersIn him⟩)

theorem unitPower_identifiersIn {e : Expression} (h : e.IdentifiersIn S) (negative : Bool) :
    (unitPower e negative).IdentifiersIn S := by
  have hnil : ∀ c, (constant c).IdentifiersIn S := fun c =>
    identifiersIn_of_eq_nil (by rw [identifiers])
  have hproduct : (productOf [e, constant .imaginaryUnit]).IdentifiersIn S :=
    identifiersIn_productOf (by simpa using ⟨h, hnil _⟩)
  unfold unitPower
  refine identifiersIn_power.2 ⟨hnil _, ?_⟩
  split
  · exact identifiersIn_opposite.2 hproduct
  · exact hproduct

theorem polarExpression_identifiersIn (h : f.SymbolsIn S) (q : Rat) :
    (polarExpression f q).IdentifiersIn S := by
  have hunit := unitPower_identifiersIn
    (expression_identifiersIn (symbolsIn_pi.scale (S := S) (Rational.magnitude q))) (decide (q < 0))
  unfold polarExpression
  split
  · exact expression_identifiersIn h
  · dsimp only
    split
    · exact hunit
    · exact identifiersIn_productOf (by simpa using ⟨expression_identifiersIn h, hunit⟩)

theorem polar_identifiersIn (h : f.SymbolsIn S) : (f.polar p).IdentifiersIn S := by
  unfold polar
  split
  · exact expression_identifiersIn h
  · next re im hs =>
    obtain ⟨hre, him⟩ := h.split hs
    dsimp only
    split
    · exact expression_identifiersIn h
    · split
      · next hr _ =>
        exact polarExpression_identifiersIn (((hre.mul hre).add (him.mul him)).root hr) _
      · exact cartesian_identifiersIn h

theorem display_identifiersIn (h : f.SymbolsIn S) : (f.display p).IdentifiersIn S := by
  unfold display
  split
  · exact polar_identifiersIn h
  · exact cartesian_identifiersIn h

end Form

namespace Complex

open Expression

theorem ofFloat_identifiersIn (x : Float) : (ofFloat x).IdentifiersIn S :=
  identifiersIn_of_eq_nil (by rw [ofFloat, identifiers])

theorem imaginaryExpression_identifiersIn (y : Float) : (imaginaryExpression y).IdentifiersIn S := by
  have hunit : (constant .imaginaryUnit).IdentifiersIn S :=
    identifiersIn_of_eq_nil (by rw [identifiers])
  have hbare : (if y.abs == 1.0 then constant .imaginaryUnit
      else productOf [.ofFloat y.abs, constant .imaginaryUnit]).IdentifiersIn S := by
    split
    · exact hunit
    · exact identifiersIn_productOf (by simpa using ⟨ofFloat_identifiersIn _, hunit⟩)
  unfold imaginaryExpression
  dsimp only
  split
  · exact identifiersIn_opposite.2 hbare
  · exact hbare

theorem polarExpression_identifiersIn (digits : Nat) (z : Complex) :
    (z.polarExpression digits).IdentifiersIn S := by
  unfold polarExpression
  exact identifiersIn_productOf (by
    simpa using ⟨ofFloat_identifiersIn _, Form.unitPower_identifiersIn (ofFloat_identifiersIn _) _⟩)

theorem display_identifiersIn (p : Preferences) (z : Complex) : (z.display p).IdentifiersIn S := by
  unfold display
  split
  · exact identifiersIn_of_eq_nil (by rw [identifiers])
  split
  · exact polarExpression_identifiersIn _ _
  split
  · exact ofFloat_identifiersIn _
  split
  · exact imaginaryExpression_identifiersIn _
  · exact identifiersIn_sumOf (by
      simpa using ⟨ofFloat_identifiersIn _, imaginaryExpression_identifiersIn _⟩)

end Complex

end Resolvent

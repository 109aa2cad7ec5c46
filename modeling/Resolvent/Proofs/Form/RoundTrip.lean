import Resolvent.Proofs.Expression.Denotation
import Resolvent.Proofs.Form.Canonical
import Resolvent.Proofs.Form.Made
import Resolvent.Proofs.Form.Rebuilding
import Resolvent.Proofs.Form.Symbols
import Resolvent.Proofs.Solve.Upkeep
import Resolvent.Rewriting.Saturation

/-!
# Canonical forms are read back

Arithmetic keeps atoms, apart from roots, which it makes of other roots with the same index.  So
what is known of an atom when it is made is known of it in every form that it gets into: roots are
those of whole numbers, and radicals, functions and powers have no simpler value
(`Form.Made.recognised`).  With that, the form of an expression is read back from the expression
that is written for it, within the limits that powers obey (`Expression.form_expression_of_form`).

Storing an expression gives a handle of it (`Build.store_stores`).  The expression that a form is
written as is stored with nothing left to expand: without definitions, expanding it gives the same
handle and stores nothing new (`Expression.Written.expand`).  So the canonical form of the
expression that is written for a canonical form is the same form again, within the limits that
powers obey, exactly where the identities keep the form of what they are given
(`Build.canonical_expression_iff`).
-/

namespace Resolvent

variable {p : Preferences} {S : Nat → Prop}

namespace Form

variable {f : Form}

/-! ### Classes of atoms -/

/-- The atoms of forms that expressions have are of the class, once those inside them are made of
its monomials. -/
structure Made.Classified (p : Preferences) (S : Nat → Prop) (A : Atom → Prop)
    (P : Monomial → Prop) : Prop extends Monomial.Closed A P where
  /-- The imaginary unit is taken out of monomials of the class. -/
  without : ∀ m, P m → P (m.without .imaginaryUnit)
  /-- Constants. -/
  constant : ∀ a : Atom, a.IsConstant → A a
  /-- Symbols. -/
  symbol : ∀ id, S id → A (.symbol id)
  /-- Roots of whole numbers. -/
  root : ∀ (q : Rat) (n : Nat), q.den = 1 → 2 ≤ n → A (.root q n)
  /-- Roots that have no simpler value. -/
  radical : ∀ (f : Form) (n : Nat), f.MonomialsIn P →
    Form.root p f n = .ok (Form.radical f n) → A (.radical f n)
  /-- Functions that have no exact value. -/
  apply : ∀ (g : Builtin) (args : List Form), (∀ f ∈ args, f.MonomialsIn P) →
    ofFunction p g.code args = .ok (ofAtom (.apply g args)) → A (.apply g args)
  /-- Powers that are not multiplied out. -/
  power : ∀ f g : Form, f.MonomialsIn P → g.MonomialsIn P →
    (f ≠ Form.e → Form.power p f g = .ok (ofAtom (.power f g))) → A (.power f g)

theorem Made.monomialsIn {A : Atom → Prop} {P : Monomial → Prop} (hA : Made.Classified p S A P)
    (h : f.Made p S) : f.MonomialsIn P := by
  have hclosed := hA.toClosed
  induction h with
  | rational q => exact monomialsIn_ofRat hclosed.one q
  | constants c h => exact monomialsIn_ofFactors hclosed c fun x hx => hA.constant _ (h x hx)
  | symbol h => exact monomialsIn_ofAtom hclosed (hA.symbol _ h)
  | root h hden =>
    cases h with
    | root _ _ hlow => exact monomialsIn_ofAtom hclosed (hA.root _ _ hden hlow)
  | radical _ _ _ _ h hf => exact monomialsIn_ofAtom hclosed (hA.radical _ _ hf h)
  | apply _ h hargs => exact monomialsIn_ofAtom hclosed (hA.apply _ _ hargs h)
  | power _ _ h hf hg => exact monomialsIn_ofAtom hclosed (hA.power _ _ hf hg h)
  | add _ _ hf hg => exact hf.add hg
  | neg _ hf => exact hf.neg
  | scale _ k hf => exact hf.scale k
  | mul _ _ hf hg => exact hf.mul hclosed hg
  | pow _ hg hf => exact hf.pow hclosed hg
  | inverse _ hg hf => exact hf.inverse hclosed hg
  | realPart _ hf => exact hf.realPart
  | imaginaryPart _ hf => exact hf.imaginaryPart hA.without

/-! ### Recognised atoms -/

theorem restPower_den {n : Nat} (hn : 0 < n) {x : Rat × Int} (hx : x.1.den = 1) :
    (restPower n x).den = 1 := by
  obtain ⟨j, hj⟩ := exists_restPower_eq hn x
  rw [hj, Rat.den_pow, hx, one_pow]

theorem restProduct_den {n : Nat} (hn : 0 < n) {radicands : List (Rat × Int)}
    (h : ∀ x ∈ radicands, x.1.den = 1) : (restProduct n radicands).den = 1 := by
  induction radicands with
  | nil => rfl
  | cons x radicands ih =>
    obtain ⟨hx, hrest⟩ := List.forall_mem_cons.1 h
    have hdvd := Rat.mul_den_dvd (restPower n x) (restProduct n radicands)
    rw [restPower_den hn hx, ih hrest] at hdvd
    rw [restProduct_cons]
    exact Nat.dvd_one.1 hdvd

/-- Roots of whole numbers with one index make a root of a whole number. -/
theorem settles_recognised : Atom.Settles (Atom.Recognised p) where
  reciprocal _ := trivial
  rootShare := by
    intro factors n hn h y hy
    obtain ⟨q, k, hq⟩ := mem_rootIndices.1 hn
    have hpos : 0 < n := (show _ ∧ _ from h _ hq).2
    rw [(eq_of_mem_kept_rootShare hy).1]
    refine ⟨extract_den (restProduct_den hpos fun x hx => ?_), hpos⟩
    exact (show _ ∧ _ from h _ (mem_radicandsOf.1 hx)).1

theorem classified_recognised : Made.Classified p S (Atom.Everywhere (Atom.Recognised p))
    (Monomial.Everywhere (Atom.Recognised p)) where
  toClosed := closed_everywhere settles_recognised
  without _ hm x hx := hm x (List.mem_filter.1 hx).1
  constant a ha := by
    cases a with
    | pi | e | imaginaryUnit => exact ⟨trivial, nofun⟩
    | _ => exact ha.elim
  symbol _ _ := ⟨trivial, nofun⟩
  root _ _ hden hn := ⟨⟨hden, by omega⟩, nofun⟩
  radical _ _ hf h := ⟨h, Atom.throughout_radical.2 (everywhere_iff.2 hf)⟩
  apply _ _ hargs h := ⟨h, Atom.throughout_apply.2 fun f hf => everywhere_iff.2 (hargs f hf)⟩
  power _ _ hf hg h := ⟨h, Atom.throughout_power.2 ⟨everywhere_iff.2 hf, everywhere_iff.2 hg⟩⟩

/-- The atoms of forms that expressions have stand for what their expressions are found to be. -/
theorem Made.recognised (h : f.Made p S) : f.Everywhere (Atom.Recognised p) :=
  everywhere_iff.2 (h.monomialsIn classified_recognised)

end Form

/-- The form of an expression is read back from the expression that is written for it, where it is
within the limits. -/
theorem Expression.form_expression_of_form {e : Expression} {f : Form} (h : e.form p = .ok f)
    (hreadable : f.Throughout Monomial.FactorReadable) : f.expression.form p = .ok f := by
  have hmade : f.Made p fun _ => True := form_made (fun _ _ => trivial) h
  exact Form.form_expression hmade.isNormal hmade.recognised hreadable

end Resolvent

/-! ## Canonical forms are read back -/

namespace Resolvent

variable {A B : Arena} {h k : Handle} {S : Nat → Prop}

theorem bind_run_of_ok {σ ε α β : Type} {m : ExceptT ε (StateM σ) α}
    {f : α → ExceptT ε (StateM σ) β} {x y : σ} {a : α} (hm : m x = (.ok a, y)) :
    (m >>= f) x = f a y := by
  rw [bind_run, hm]

/-! ### Storing expressions -/

namespace Build

variable {names : Symbols}

mutual

/-- Storing an expression gives a handle of it. -/
theorem store_stores : ∀ {A : Arena} {e : Expression}, A.Consistent names →
    e.IdentifiersIn names.IsNumber → Stores names (store e) A e
  | _, .integer _, hA, _ | _, .fraction _, hA, _ | _, .float _, hA, _ | _, .constant _, hA, _
  | _, .undefined, hA, _ | _, .unreal, hA, _ => intern_stores_of_plain hA rfl rfl rfl
  | _, .symbol _, hA, he =>
    symbol_stores hA ((Expression.identifiersIn_symbol (S := names.IsNumber)).1 he)
  | _, .sum _, hA, he =>
    (storeAll_stores hA (Expression.identifiersIn_sum.1 he)).bind fun _ _ _ hB h =>
      intern_stores_of_operands hB rfl h (Option.map_eq_some_iff.2 ⟨_, h, rfl⟩)
  | _, .product _, hA, he =>
    (storeAll_stores hA (Expression.identifiersIn_product.1 he)).bind fun _ _ _ hB h =>
      intern_stores_of_operands hB rfl h (Option.map_eq_some_iff.2 ⟨_, h, rfl⟩)
  | _, .apply code _, hA, he =>
    (storeAll_stores hA (Expression.identifiersIn_apply.1 he)).bind fun _ _ _ hB h =>
      applyCode_stores hB code h
  | _, .matrix rows columns _, hA, he =>
    (storeAll_stores hA (Expression.identifiersIn_matrix.1 he)).bind fun _ _ _ hB h =>
      matrix_stores hB rows columns h
  | _, .opposite _, hA, he =>
    (store_stores hA (Expression.identifiersIn_opposite.1 he)).bind fun _ _ _ hB h =>
      opposite_stores hB h
  | _, .call _ _, hA, he =>
    have ⟨hid, he⟩ := Expression.identifiersIn_call.1 he
    (store_stores hA he).bind fun _ _ _ hB h => call_stores hB hid h
  | _, .power _ _, hA, he =>
    have ⟨ha, hb⟩ := Expression.identifiersIn_power.1 he
    (store_stores hA ha).bind fun _ _ _ hB ha =>
      (store_stores hB hb).bind fun _ _ hBC hC hb =>
        power_stores hC (lasting_denotes _ _ _ _ hBC ha) hb
  | _, .quotient _ _, hA, he =>
    have ⟨ha, hb⟩ := Expression.identifiersIn_quotient.1 he
    (store_stores hA ha).bind fun _ _ _ hB ha =>
      (store_stores hB hb).bind fun _ _ hBC hC hb =>
        quotient_stores hC (lasting_denotes _ _ _ _ hBC ha) hb

theorem storeAll_stores : ∀ {A : Arena} {es : List Expression}, A.Consistent names →
    (∀ e ∈ es, e.IdentifiersIn names.IsNumber) →
    Resolvent.Yields id (Arena.Consistent names) (storeAll es) A (DenotesAll es)
  | _, [], hA, _ => .pure hA (denotesAll_nil.2 rfl)
  | _, _ :: _, hA, he =>
    have ⟨he, hes⟩ := List.forall_mem_cons.1 he
    (store_stores hA he).bind fun _ _ _ hB h =>
      (storeAll_stores hB hes).bind fun _ _ hBC hC hs =>
        .pure hC (denotesAll_cons (lasting_denotes _ _ _ _ hBC h) hs)

end

end Build

/-! ### Expanding what is written -/

namespace Expression

variable {Δ : Definitions} {mode : Mode} {nested : Parameters → Expression → ExpandM Handle}
  {e : Expression}

/-- Nothing in the expression is expanded: its handle stands for it already. -/
def Expanded (Δ : Definitions) (mode : Mode)
    (nested : Parameters → Expression → ExpandM Handle) (A : Arena) (e : Expression) : Prop :=
  ∀ {k : Handle} (s : Encounters), Denotes e k A →
    ∃ t, expandWith Δ mode nested [] e (A, s) = (.ok k, (A, t))

theorem expandAll_of_expanded {es : List Expression} (h : ∀ e ∈ es, Expanded Δ mode nested A e)
    {hs : List Handle} (hdenotes : DenotesAll es hs A) (s : Encounters) :
    ∃ t, expandAllWith Δ mode nested [] es (A, s) = (.ok hs, (A, t)) := by
  induction es generalizing hs s with
  | nil =>
    obtain rfl : hs = [] := List.length_eq_zero_iff.1 hdenotes.length_eq
    exact ⟨s, by rw [expandAllWith]; rfl⟩
  | cons e es ih =>
    obtain ⟨he, hes⟩ := List.forall_mem_cons.1 h
    cases hs with
    | nil => cases denotesAll_nil.1 hdenotes
    | cons k hs =>
      obtain ⟨x, xs, heq, hx, hxs⟩ := denotesAll_cons_iff.1 hdenotes
      cases heq
      obtain ⟨t, ht⟩ := he s hx
      obtain ⟨u, hu⟩ := ih hes hxs t
      exact ⟨u, by rw [expandAllWith, bind_run_of_ok ht, bind_run_of_ok hu]; rfl⟩

/-- Storing the node of a stored expression again gives the same handle. -/
theorem exists_build_eq (hA : A.WellFormed) (h : Denotes e k A) :
    ∃ hs, DenotesAll e.operands hs A ∧
      ∀ s, ExpandM.build (Build.intern (Arena.nodeOf e hs)) (A, s) = (.ok k, (A, s)) := by
  obtain ⟨n, hn, hnode, hoperands⟩ := hA.exists_node?_of_denotes h
  refine ⟨n.children, hoperands, fun s => ?_⟩
  unfold ExpandM.build
  dsimp only
  rw [hnode, Build.intern_of_node? hA hn]

theorem sum_eq_intern {hs : List Handle} (h : 2 ≤ hs.length) :
    Build.sum hs = Build.intern (.sum hs) := by
  match hs, h with
  | _ :: _ :: _, _ => rfl

theorem product_eq_intern {hs : List Handle} (h : 2 ≤ hs.length) :
    Build.product hs = Build.intern (.product hs) := by
  match hs, h with
  | _ :: _ :: _, _ => rfl

/-- What a form is written as is expanded already, where no definition replaces its symbols. -/
theorem Written.expanded (hA : A.WellFormed)
    (hS : ∀ id, S id → mode = .replaceAll → Δ.value? id = none) (h : e.Written S) :
    Expanded Δ mode nested A e := by
  induction h with
  | integer | fraction | constant =>
    intro k s hk
    obtain ⟨hs, -, hbuild⟩ := exists_build_eq hA hk
    exact ⟨s, by rw [expandWith]; exact hbuild s⟩
  | @symbol id hid =>
    intro k s hk
    obtain ⟨hs, -, hbuild⟩ := exists_build_eq hA hk
    have hvalue : (if mode = .replaceAll then Δ.value? id else none) = none := by
      split
      · next hmode => exact hS id hid hmode
      · rfl
    refine ⟨if s.met.contains id then s else { s with met := s.met ++ [id] }, ?_⟩
    rw [expandWith, expandSymbol, List.lookup_nil]
    dsimp only
    rw [hvalue]
    exact hbuild _
  | sum hlength _ ih =>
    intro k s hk
    obtain ⟨hs, hoperands, hbuild⟩ := exists_build_eq hA hk
    obtain ⟨t, ht⟩ := expandAll_of_expanded ih hoperands s
    have hlength := hoperands.length_eq.symm ▸ hlength
    refine ⟨t, ?_⟩
    rw [expandWith, bind_run_of_ok ht, sum_eq_intern hlength]
    exact hbuild t
  | product hlength _ ih =>
    intro k s hk
    obtain ⟨hs, hoperands, hbuild⟩ := exists_build_eq hA hk
    obtain ⟨t, ht⟩ := expandAll_of_expanded ih hoperands s
    have hlength := hoperands.length_eq.symm ▸ hlength
    refine ⟨t, ?_⟩
    rw [expandWith, bind_run_of_ok ht, product_eq_intern hlength]
    exact hbuild t
  | apply code _ ih =>
    intro k s hk
    obtain ⟨hs, hoperands, hbuild⟩ := exists_build_eq hA hk
    obtain ⟨t, ht⟩ := expandAll_of_expanded ih hoperands s
    exact ⟨t, by rw [expandWith, bind_run_of_ok ht]; exact hbuild t⟩
  | opposite _ ih =>
    intro k s hk
    obtain ⟨hs, hoperands, hbuild⟩ := exists_build_eq hA hk
    obtain ⟨x, rfl, hx⟩ := exists_of_denotesAll_singleton hoperands
    obtain ⟨t, ht⟩ := ih s hx
    exact ⟨t, by rw [expandWith, bind_run_of_ok ht]; exact hbuild t⟩
  | power _ _ iha ihb =>
    intro k s hk
    obtain ⟨hs, hoperands, hbuild⟩ := exists_build_eq hA hk
    obtain ⟨x, y, rfl, hx, hy⟩ := exists_of_denotesAll_pair hoperands
    obtain ⟨t, ht⟩ := iha s hx
    obtain ⟨u, hu⟩ := ihb t hy
    refine ⟨u, ?_⟩
    rw [expandWith, bind_run_of_ok ht, bind_run_of_ok hu]
    exact hbuild u
  | quotient _ _ iha ihb =>
    intro k s hk
    obtain ⟨hs, hoperands, hbuild⟩ := exists_build_eq hA hk
    obtain ⟨x, y, rfl, hx, hy⟩ := exists_of_denotesAll_pair hoperands
    obtain ⟨t, ht⟩ := iha s hx
    obtain ⟨u, hu⟩ := ihb t hy
    refine ⟨u, ?_⟩
    rw [expandWith, bind_run_of_ok ht, bind_run_of_ok hu]
    exact hbuild u

/-- Expanding what a form is written as gives the handle of it and stores nothing, where no
definition replaces its symbols. -/
theorem Written.expand_of_kept (hA : A.WellFormed)
    (hS : ∀ id, S id → mode = .replaceAll → Δ.value? id = none) (h : e.Written S)
    (hk : Denotes e k A) : ∃ t, Build.expand Δ mode e A = (.ok (k, t), A) := by
  have hexpanded : Expanded Δ mode (expandAt Δ mode 31) A e := h.expanded hA hS
  obtain ⟨t, ht⟩ := hexpanded {} hk
  refine ⟨t, ?_⟩
  unfold Build.expand
  rw [show e.expand Δ mode (A, {}) = (.ok k, (A, t)) from ht]

theorem Written.expand (hA : A.WellFormed) (hΔ : ∀ id, Δ.value? id = none) (h : e.Written S)
    (hk : Denotes e k A) : ∃ t, Build.expand Δ mode e A = (.ok (k, t), A) :=
  h.expand_of_kept hA (fun id _ _ => hΔ id) hk

end Expression

/-! ### Canonical forms -/

namespace Build

variable (c : Canonizer)

theorem value?_of_isEmpty {Γ : Context Handle} (hΓ : Γ.isEmpty = true) (A : Arena) (id : Nat) :
    (Γ.definitions A).value? id = none := by
  obtain ⟨entries⟩ := Γ
  obtain rfl : entries = [] := List.isEmpty_iff.1 hΓ
  unfold Context.definitions
  dsimp only
  cases A.symbolName? id <;> rfl

/-- The canonical form of a stored expression is the form of an expression. -/
theorem exists_form_of_canonical {r : Canonical} (hr : canonical c h A = (.ok r, B)) :
    ∃ e : Expression, e.form c.preferences = .ok r.form := by
  unfold canonical at hr
  rw [bind_run, getThe_run] at hr
  dsimp only at hr
  rw [bind_run] at hr
  split at hr
  · next expanded C hexpand =>
    rw [bind_run] at hr
    split at hr
    · next simplified D hsimplify =>
      rw [bind_run, getThe_run] at hr
      dsimp only at hr
      rcases hform : (D.expression simplified).form c.preferences with x | f
      · rw [hform] at hr
        cases hr
      · rw [hform] at hr
        cases hr
        exact ⟨_, hform⟩
    · cases hr
  · cases hr

/-- What the identities make of the stored expression has the form of the expression. -/
def KeepsForm (A : Arena) (k : Handle) : Prop :=
  ∃ s B, simplifyFunctions c.simplify k A = (.ok s, B) ∧
    (B.expression s).form c.preferences = (A.expression k).form c.preferences

variable {c}

/-- Where nothing is left to expand, the canonical form of a stored expression is its form if the
identities keep it, and not otherwise. -/
theorem canonical_eq_iff_keepsForm {t : Encounters} {f : Form}
    (hexpand : expand (c.context.definitions A) c.mode (A.expression k) A = (.ok (k, t), A))
    (hform : (A.expression k).form c.preferences = .ok f) :
    (canonical c k A).1.map Canonical.form = .ok f ↔ KeepsForm c A k := by
  have hlift : Build.lift CanonicalError.exhausted (simplifyFunctions c.simplify k) A =
      ((simplifyFunctions c.simplify k A).1.mapError CanonicalError.exhausted,
        (simplifyFunctions c.simplify k A).2) := rfl
  unfold canonical KeepsForm
  rw [bind_run_of_ok (getThe_run A), bind_run_of_ok hexpand, hform]
  dsimp only
  rw [bind_run, hlift]
  rcases hrun : simplifyFunctions c.simplify k A with ⟨x | s, B⟩
  · exact ⟨nofun, fun ⟨_, _, h, _⟩ => nomatch h⟩
  · dsimp only [Except.mapError]
    rw [bind_run_of_ok (getThe_run B)]
    constructor
    · intro h
      refine ⟨s, B, rfl, ?_⟩
      rcases hs : (B.expression s).form c.preferences with x | g
      · rw [hs] at h
        cases h
      · rw [hs] at h
        exact h
    · rintro ⟨_, _, hrun', hsame⟩
      cases hrun'
      rw [hsame]
      rfl

/-- **Canonical forms are read back**: without definitions, the expression that is written for the
canonical form of an expression has the same canonical form, provided that the factors of the form
are within the limits that powers obey, if the identities keep the form of the expression that is
written for it, and not otherwise. -/
theorem canonical_expression_iff (hA : A.WellFormed) (hΓ : c.context.isEmpty = true)
    {r : Canonical} (hr : canonical c h A = (.ok r, B))
    (hlimits : r.form.Throughout Monomial.FactorReadable) {C : Arena}
    (hstore : store r.form.expression B = (.ok k, C)) :
    (canonical c k C).1.map Canonical.form = .ok r.form ↔ KeepsForm c C k := by
  obtain ⟨-, hB, hsymbols⟩ := canonical_yields c h hA
  rw [hr] at hB hsymbols
  have hwritten := Form.expression_written (hsymbols r rfl)
  obtain ⟨-, hC, hdenotes⟩ := store_stores ⟨hB, rfl⟩ hwritten.identifiersIn
  rw [hstore] at hC hdenotes
  have hk : Denotes r.form.expression k C := hdenotes k rfl
  obtain ⟨t, ht⟩ := hwritten.expand hC.wellFormed (value?_of_isEmpty hΓ C) hk
  obtain ⟨e, he⟩ := exists_form_of_canonical c hr
  rw [← hk.expression_eq] at ht
  refine canonical_eq_iff_keepsForm ht ?_
  rw [hk.expression_eq]
  exact Expression.form_expression_of_form he hlimits

/-- No definition takes the place of the symbol. -/
def Keeps (c : Canonizer) (A : Arena) (id : Nat) : Prop :=
  c.mode = .replaceAll → (c.context.definitions A).value? id = none

/-- The canonical form of an expression without functions, where no definition replaces its
symbols. -/
theorem exists_canonical_of_kept {e : Expression} (hA : A.WellFormed)
    (hS : ∀ id, S id → Keeps c A id) (hh : Denotes e h A) (hwritten : e.Written S)
    (hfunctions : e.isTranscendental = false) {f : Form} (hform : e.form c.preferences = .ok f) :
    ∃ r, canonical c h A = (.ok r, A) ∧ r.form = f := by
  obtain rfl := hh.expression_eq
  obtain ⟨t, ht⟩ := hwritten.expand_of_kept hA hS hh
  have hcanonical := canonical_of_plain c ht hfunctions rfl
  rw [hform] at hcanonical
  exact ⟨_, hcanonical, rfl⟩

/-- The canonical form of an expression without functions in which nothing is left to expand. -/
theorem exists_canonical_of_written {e : Expression} (hA : A.WellFormed)
    (hΓ : c.context.isEmpty = true) (hh : Denotes e h A) (hwritten : e.Written S)
    (hfunctions : e.isTranscendental = false) {f : Form} (hform : e.form c.preferences = .ok f) :
    ∃ r, canonical c h A = (.ok r, A) ∧ r.form = f :=
  exists_canonical_of_kept hA (fun id _ _ => value?_of_isEmpty hΓ A id) hh hwritten hfunctions hform

/-- The nodes of `x * x / π` and of `x ^ 2 / π`. -/
def squareOverPiArena : Arena :=
  .ofNodes ["x"] [.symbol 0, .product [⟨0⟩, ⟨0⟩], .constant .pi, .quotient ⟨1⟩ ⟨2⟩, .integer 2,
    .power ⟨0⟩ ⟨4⟩, .quotient ⟨5⟩ ⟨2⟩] (List.nodup_singleton _)

theorem wellFormed_squareOverPiArena : squareOverPiArena.WellFormed :=
  .ofNodes (by decide) (by decide) (by decide)

/-- The quotient of a square is read back. -/
theorem canonical_expression_squareOverPi : ∃ (c : Canonizer) (r : Canonical),
    (squareOverPiArena.WellFormed ∧ c.context.isEmpty = true ∧
      canonical c ⟨3⟩ squareOverPiArena = (.ok r, squareOverPiArena) ∧
      r.form.Throughout Monomial.FactorReadable ∧
      store r.form.expression squareOverPiArena = (.ok ⟨6⟩, squareOverPiArena)) ∧
    ((canonical c ⟨6⟩ squareOverPiArena).1.map Canonical.form = .ok r.form ↔
      KeepsForm c squareOverPiArena ⟨6⟩) := by
  have hA := wellFormed_squareOverPiArena
  let f : Form := ⟨[(⟨[(.symbol 0, 2), (.pi, -1)]⟩, 1)]⟩
  have hx : Expression.Written (fun _ => True) (.symbol 0) := .symbol trivial
  have hsquare : Expression.Written (fun _ => True) (.product [.symbol 0, .symbol 0]) :=
    .product le_rfl (by simpa using hx)
  obtain ⟨r, hr, hrf⟩ := exists_canonical_of_written (c := { simplifier := .saturation })
    (h := ⟨3⟩) (f := f) hA rfl rfl (.quotient hsquare (.constant .pi)) rfl (by decide +kernel)
  have hlimits : r.form.Throughout Monomial.FactorReadable := by
    rw [hrf]
    rw [Form.throughout_iff]
    have hpower : (2 : Int).natAbs ≤ Form.maxExpandedPower := by decide
    have hinverse : (-1 : Int).natAbs ≤ Form.maxExpandedPower := by decide
    simp only [f, List.mem_cons, List.not_mem_nil, or_false, forall_eq, forall_eq_or_imp]
    exact ⟨⟨hpower, nofun⟩, hinverse, nofun⟩
  have hstore : store r.form.expression squareOverPiArena = (.ok ⟨6⟩, squareOverPiArena) := by
    have h0 : intern (.symbol 0) squareOverPiArena = (.ok ⟨0⟩, squareOverPiArena) :=
      intern_of_node? hA rfl
    have h2 : intern (.constant .pi) squareOverPiArena = (.ok ⟨2⟩, squareOverPiArena) :=
      intern_of_node? hA rfl
    have h4 : intern (.integer 2) squareOverPiArena = (.ok ⟨4⟩, squareOverPiArena) :=
      intern_of_node? hA rfl
    have h5 : intern (.power ⟨0⟩ ⟨4⟩) squareOverPiArena = (.ok ⟨5⟩, squareOverPiArena) :=
      intern_of_node? hA rfl
    have h6 : intern (.quotient ⟨5⟩ ⟨2⟩) squareOverPiArena = (.ok ⟨6⟩, squareOverPiArena) :=
      intern_of_node? hA rfl
    rw [hrf, show f.expression = .quotient (.power (.symbol 0) (.integer 2)) (.constant .pi) by rfl]
    simp [-bind_pure_comp, store, bind_run, h0, h2, h4, h5, h6]
  exact ⟨{ simplifier := .saturation }, r, ⟨hA, rfl, hr, hlimits, hstore⟩,
    canonical_expression_iff hA rfl hr hlimits hstore⟩

/-- The nodes of `x ^ 20 * x ^ 20` and of `x ^ 40`. -/
def fortiethArena : Arena :=
  .ofNodes ["x"] [.symbol 0, .integer 20, .power ⟨0⟩ ⟨1⟩, .product [⟨2⟩, ⟨2⟩], .integer 40,
    .power ⟨0⟩ ⟨4⟩] (List.nodup_singleton _)

theorem wellFormed_fortiethArena : fortiethArena.WellFormed :=
  .ofNodes (by decide) (by decide) (by decide)

/-- The product of two powers may exceed the limits that powers obey: the form of
`x ^ 20 * x ^ 20` is written as `x ^ 40`, which is not multiplied out. -/
theorem exists_canonical_expression_ne : ∃ (c : Canonizer) (A : Arena) (h k : Handle)
    (r : Canonical), A.WellFormed ∧ c.context.isEmpty = true ∧ canonical c h A = (.ok r, A) ∧
      store r.form.expression A = (.ok k, A) ∧
      (canonical c k A).1.map Canonical.form ≠ .ok r.form := by
  have hx : Expression.Written (fun _ => True) (.symbol 0) := .symbol trivial
  have hpower (n : Int) : Expression.Written (fun _ => True) (.power (.symbol 0) (.integer n)) :=
    .power hx (.integer n)
  have hproduct : Expression.Written (fun _ => True)
      (.product [.power (.symbol 0) (.integer 20), .power (.symbol 0) (.integer 20)]) :=
    .product le_rfl (by simpa using hpower 20)
  have hA := wellFormed_fortiethArena
  let f : Form := ⟨[(⟨[(.symbol 0, 40)]⟩, 1)]⟩
  let g : Form := Form.ofAtom (.power (Form.symbol 0) (Form.ofRat 40))
  obtain ⟨r, hr, hrf⟩ := exists_canonical_of_written (c := { simplifier := .saturation })
    (h := ⟨3⟩) (f := f) hA rfl rfl hproduct rfl (by decide +kernel)
  obtain ⟨s, hs, hsg⟩ := exists_canonical_of_written (c := { simplifier := .saturation })
    (h := ⟨5⟩) (f := g) hA rfl rfl (hpower 40) rfl (by decide +kernel)
  have hne : g ≠ f := by decide +kernel
  refine ⟨{ simplifier := .saturation }, fortiethArena, ⟨3⟩, ⟨5⟩, r, hA, rfl, hr, ?_, ?_⟩
  · have hsymbol : intern (.symbol 0) fortiethArena = (.ok ⟨0⟩, fortiethArena) :=
      intern_of_node? hA rfl
    have hinteger : intern (.integer 40) fortiethArena = (.ok ⟨4⟩, fortiethArena) :=
      intern_of_node? hA rfl
    have hpower : intern (.power ⟨0⟩ ⟨4⟩) fortiethArena = (.ok ⟨5⟩, fortiethArena) :=
      intern_of_node? hA rfl
    rw [hrf, show f.expression = .power (.symbol 0) (.integer 40) by rfl]
    simp [-bind_pure_comp, store, bind_run, hsymbol, hinteger, hpower]
  · rw [hs, hrf]
    intro h
    exact hne (hsg.symm.trans (Except.ok.inj h))

end Build

end Resolvent

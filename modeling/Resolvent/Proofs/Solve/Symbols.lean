import Resolvent.Proofs.Form.Coefficients
import Resolvent.Proofs.Form.SymbolsOfExpression
import Resolvent.Proofs.Linear.Transfer
import Resolvent.Proofs.Solve.Answers
import Resolvent.Solve.Linear
import Resolvent.Solve.Polynomial

/-!
# Symbols of solutions

The solvers invent no symbols: what the symbols of the forms are in, those of the answers are in
too, for linear systems (`LinearSystem.symbolsIn_of_unique`) as well as for polynomials
(`PolynomialRoots.symbolsIn`), and so are the identifiers of the expressions that show the answers
(`Answer.SymbolsIn.rendition`).
-/

namespace Resolvent

variable {S : Nat → Prop} {f : Form} {p : Preferences}

/-! ### Coefficients -/

theorem Monomial.factors_without_subset (m : Monomial) (a : Atom) :
    ∀ x ∈ (m.without a).factors, x ∈ m.factors := fun _ hx => (List.mem_filter.1 hx).1

namespace Form

/-- Sums of parts of terms of a form have no other symbols. -/
theorem SymbolsIn.sumOfTerms (h : f.SymbolsIn S) {ι : Type} {ts : List ι} {m : ι → Monomial}
    {q : ι → Rat} (hts : ∀ t ∈ ts, ∃ u ∈ f.terms, ∀ x ∈ (m t).factors, x ∈ u.1.factors) :
    (sumAll (ts.map fun t => ofTerm (m t) (q t))).SymbolsIn S := by
  refine symbolsIn_sumAll fun g hg => ?_
  obtain ⟨t, ht, rfl⟩ := List.mem_map.1 hg
  obtain ⟨u, hu, hsub⟩ := hts t ht
  exact symbolsIn_ofTerm (fun x hx => symbolsIn_iff.1 h u hu x (hsub x hx)) _

theorem SymbolsIn.linear (h : f.SymbolsIn S) {unknowns : List Nat} {e : LinearEquation}
    (he : f.linear? unknowns = some e) :
    (∀ k ∈ e.coefficients, k.SymbolsIn S) ∧ e.constant.SymbolsIn S := by
  obtain ⟨terms, hterms, rfl⟩ := Option.map_eq_some_iff.1 he
  -- each of the placed terms is a term of the form
  have hmem : ∀ t ∈ terms, t.2 ∈ f.terms := by
    intro t ht
    obtain ⟨u, hu, hut⟩ := exists_of_mem_mapM hterms ht
    obtain ⟨place, -, rfl⟩ := Option.map_eq_some_iff.1 hut
    exact hu
  refine ⟨fun k hk => ?_, ?_⟩
  · obtain ⟨i, hi, rfl⟩ := List.mem_mapIdx.1 hk
    exact h.sumOfTerms fun t ht => ⟨t.2, hmem t (List.mem_filter.1 ht).1,
      Monomial.factors_without_subset _ _⟩
  · exact h.sumOfTerms fun t ht => ⟨t.2, hmem t (List.mem_filter.1 ht).1, fun _ hx => hx⟩

theorem SymbolsIn.polynomial (h : f.SymbolsIn S) {unknown maxDegree : Nat} {ks : List Form}
    (hks : f.polynomial? unknown maxDegree = some ks) : ∀ k ∈ ks, k.SymbolsIn S := by
  intro k hk
  obtain ⟨ts, hts, rfl⟩ := exists_terms_of_mem_polynomial? hks hk
  exact h.sumOfTerms fun t ht => ⟨t, hts t ht, Monomial.factors_without_subset _ _⟩

theorem scalarClosed_symbolsIn (S : Nat → Prop) : ScalarClosed (α := Form) (SymbolsIn S) where
  zero := symbolsIn_zero
  one := symbolsIn_one
  add := SymbolsIn.add
  mul := SymbolsIn.mul
  neg := SymbolsIn.neg
  inverse := SymbolsIn.inverse

end Form

/-! ### Linear systems -/

namespace LinearSystem

theorem symbolsIn_tableau {n : Nat} {es : List LinearEquation}
    (h : ∀ e ∈ es, (∀ k ∈ e.coefficients, k.SymbolsIn S) ∧ e.constant.SymbolsIn S) :
    (tableau n es).Entries (Form.SymbolsIn S) := by
  intro i j
  obtain ⟨hcoefficients, hconstant⟩ := h es[i] (List.getElem_mem i.isLt)
  have hentry : (tableau n es).entry i j = (row n es[i])[j] := by
    simp [tableau, Tableau.entry]
  rw [hentry]
  simp only [row, Fin.getElem_fin, Vector.getElem_ofFn]
  split
  · rcases hk : es[i].coefficients[j.val]? with - | k
    · exact Form.symbolsIn_zero
    · exact hcoefficients k (List.mem_of_getElem? hk)
  · exact hconstant

/-- The values of the unknowns of a linear system have no symbols but those of the equations. -/
theorem symbolsIn_of_unique {forms : List Form} {unknowns : List Nat} {values : List Form}
    (h : ∀ f ∈ forms, f.SymbolsIn S) (hvalues : solve forms unknowns = .unique values) :
    ∀ v ∈ values, v.SymbolsIn S := by
  unfold solve solveWith at hvalues
  split at hvalues
  · cases hvalues
  · next es hes =>
    have hequations : ∀ e ∈ es, (∀ k ∈ e.coefficients, k.SymbolsIn S) ∧ e.constant.SymbolsIn S := by
      intro e he
      obtain ⟨f, hf, hfe⟩ := exists_of_mem_mapM hes he
      exact (h f hf).linear hfe
    have hentries := (symbolsIn_tableau (n := unknowns.length) hequations).reducedRowEchelon
      (Form.scalarClosed_symbolsIn S) magnitude
    dsimp only at hvalues
    unfold outcome at hvalues
    split at hvalues
    · cases hvalues
    · split at hvalues
      · cases hvalues
        intro v hv
        obtain ⟨i, -, rfl⟩ := List.mem_map.1 hv
        exact hentries i _
      · cases hvalues

end LinearSystem

/-! ### Polynomials -/

/-- All symbols of an exact answer are in a class. -/
def Answer.SymbolsIn (S : Nat → Prop) : Answer → Prop
  | .exact f => f.SymbolsIn S
  | .unreal | .approximate _ => True

namespace Answer

theorem symbolsIn_ofForm? {o : Option Form} (h : ∀ f ∈ o, f.SymbolsIn S) :
    (ofForm? o).SymbolsIn S := by
  cases o with
  | none => trivial
  | some f => exact h f rfl

end Answer

namespace Quadratic

variable {q : Quadratic}

/-- All symbols of the coefficients are in a class. -/
structure SymbolsIn (S : Nat → Prop) (q : Quadratic) : Prop where
  a : q.a.SymbolsIn S
  b : q.b.SymbolsIn S
  c : q.c.SymbolsIn S

theorem SymbolsIn.discriminant (h : q.SymbolsIn S) : q.discriminant.SymbolsIn S :=
  (h.b.mul h.b).sub ((h.a.mul h.c).scale 4)

theorem SymbolsIn.roots (h : q.SymbolsIn S) : ∀ x ∈ q.roots p, x.SymbolsIn S := by
  unfold Quadratic.roots
  split
  · next i hi =>
    have hi : i.SymbolsIn S := (h.a.scale 2).inverse hi
    unfold rootsWith
    dsimp only
    split
    · simpa [Answer.SymbolsIn] using h.b.neg.mul hi
    · split
      · next r hr =>
        have hr : r.SymbolsIn S := h.discriminant.root hr
        simpa [Answer.SymbolsIn] using ⟨(h.b.neg.sub hr).mul hi, (h.b.neg.add hr).mul hi⟩
      · simp [Answer.SymbolsIn]
  · simp [Answer.SymbolsIn, Answer.undefined]

end Quadratic

namespace Cubic

variable {q : Cubic}

/-- All symbols of the coefficients are in a class. -/
structure SymbolsIn (S : Nat → Prop) (q : Cubic) : Prop where
  a : q.a.SymbolsIn S
  b : q.b.SymbolsIn S
  c : q.c.SymbolsIn S
  d : q.d.SymbolsIn S

theorem SymbolsIn.discriminant (h : q.SymbolsIn S) : q.discriminant.SymbolsIn S := by
  have hbc := h.b.mul h.c
  have had := h.a.mul h.d
  exact ((((Form.symbolsIn_zero.add (hbc.mul hbc)).add ((had.mul hbc).scale _)).add
    ((had.mul had).scale _)).add (((h.a.mul h.c).mul (h.c.mul h.c)).scale _)).add
      (((h.b.mul h.b).mul (h.b.mul h.d)).scale _)

theorem symbolsIn_rationalRoot? {r : Form} (hr : q.rationalRoot? = some r) : r.SymbolsIn S := by
  obtain ⟨x, -, rfl⟩ := Option.map_eq_some_iff.1 hr
  exact Form.symbolsIn_ofRat x

theorem SymbolsIn.termRoot (h : q.SymbolsIn S) {r : Form} (hr : q.termRoot? = some r) :
    r.SymbolsIn S := by
  obtain ⟨t, ht, hr⟩ := List.exists_of_findSome?_eq_some hr
  have hr := (Option.filter_eq_some_iff.1 hr).1
  exact (Form.symbolsIn_ofFactors t.2 (Form.symbolsIn_iff.1 h.b t ht)).neg.divide h.a hr

theorem SymbolsIn.simpleRoot (h : q.SymbolsIn S) {r : Form} (hr : q.simpleRoot? = some r) :
    r.SymbolsIn S := by
  unfold simpleRoot? at hr
  split at hr
  · cases hr
    exact Form.symbolsIn_zero
  · split at hr
    · next hs =>
      cases hr
      exact h.d.neg.divide h.c (Option.filter_eq_some_iff.1 hs).1
    · split at hr
      · next hs =>
        cases hr
        exact symbolsIn_rationalRoot? hs
      · exact h.termRoot hr

theorem SymbolsIn.rootsBeside (h : q.SymbolsIn S) {r : Form} (hr : r.SymbolsIn S) :
    ∀ x ∈ q.rootsBeside p r, x.SymbolsIn S := by
  intro x hx
  rcases List.mem_cons.1 hx with rfl | hx
  · exact hr
  · split at hx
    · next k hk =>
      refine Quadratic.SymbolsIn.roots ⟨h.a, h.b.add (h.a.mul hr), ?_⟩ x hx
      split at hk
      · cases hk
        exact h.c
      · exact h.d.neg.divide hr hk
    · rw [List.mem_singleton.1 hx]
      trivial

theorem symbolsIn_cubeRoots {root : Form} (h : root.SymbolsIn S) :
    ∀ x ∈ cubeRoots root, x.SymbolsIn S := by
  have hrotation : (Form.ofFactors (1 / 2) [(.root 3 2, 1), (.imaginaryUnit, 1)]).SymbolsIn S :=
    Form.symbolsIn_ofFactors _ (by simp [Atom.symbolsIn_root, Atom.symbolsIn_imaginaryUnit])
  have hhalf : (Form.ofRat (-1 / 2)).SymbolsIn S := Form.symbolsIn_ofRat _
  simp only [cubeRoots, List.forall_mem_cons]
  exact ⟨h.mul (hhalf.add hrotation), h.mul (hhalf.sub hrotation), h, List.forall_mem_nil _⟩

theorem SymbolsIn.pureRoots (h : q.SymbolsIn S) : ∀ x ∈ q.pureRoots p, x.SymbolsIn S := by
  unfold Cubic.pureRoots
  split
  · simp [Answer.SymbolsIn, Answer.undefined]
  · next hratio =>
    split
    · next hr => exact symbolsIn_cubeRoots ((h.d.neg.divide h.a hratio).root hr)
    · simp [Answer.SymbolsIn]

theorem SymbolsIn.multipleRoots (h : q.SymbolsIn S) : ∀ x ∈ q.multipleRoots, x.SymbolsIn S := by
  have had := h.a.mul h.d
  have hdelta := (h.b.mul h.b).sub ((h.a.mul h.c).scale 3)
  unfold Cubic.multipleRoots
  dsimp only
  split
  · intro x hx
    rw [List.mem_singleton.1 hx]
    exact Answer.symbolsIn_ofForm? fun f hf => h.b.neg.divide (h.a.scale 3) hf
  · intro x hx
    rcases List.mem_cons.1 hx with rfl | hx
    · exact Answer.symbolsIn_ofForm? fun f hf =>
        ((had.scale 9).sub (h.b.mul h.c)).divide (hdelta.scale 2) hf
    · rw [List.mem_singleton.1 hx]
      refine Answer.symbolsIn_ofForm? fun f hf => Form.SymbolsIn.divide ?_ (h.a.mul hdelta) hf
      exact ((((h.a.mul h.b).mul h.c).scale 4).sub ((h.a.mul had).scale 9)).sub
        ((h.b.mul h.b).mul h.b)

theorem symbolsIn_numericRoots : ∀ x ∈ q.numericRoots p, x.SymbolsIn S := by
  intro x hx
  obtain ⟨z, -, rfl⟩ := List.mem_map.1 hx
  trivial

theorem SymbolsIn.roots (h : q.SymbolsIn S) : ∀ x ∈ q.roots p, x.SymbolsIn S := by
  unfold Cubic.roots
  split
  · exact h.pureRoots
  · split
    · next hr => exact h.rootsBeside (h.simpleRoot hr)
    · split
      · exact h.multipleRoots
      · exact symbolsIn_numericRoots

end Cubic

/-- The answers of a polynomial equation have no symbols but those of its form. -/
theorem PolynomialRoots.symbolsIn (h : f.SymbolsIn S) {unknown : Nat} {r : PolynomialRoots}
    (hr : f.polynomialRoots? p unknown = some r) : ∀ x ∈ r.answers, x.SymbolsIn S := by
  have happend : ∀ {answers : List Answer} {g : Form}, (∀ x ∈ answers, x.SymbolsIn S) →
      g.SymbolsIn S → ∀ x ∈ Answer.listed p answers ++ [.exact g], x.SymbolsIn S := by
    intro answers g hanswers hg x hx
    rcases List.mem_append.1 hx with hx | hx
    · exact hanswers x (Answer.mem_of_mem_listed hx)
    · rw [List.mem_singleton.1 hx]
      exact hg
  unfold Form.polynomialRoots? at hr
  split at hr
  · next c b a hks =>
    have hks := h.polynomial hks
    have hq : Quadratic.SymbolsIn S ⟨a, b, c⟩ :=
      ⟨hks _ (by simp), hks _ (by simp), hks _ (by simp)⟩
    cases hr
    exact happend hq.roots hq.discriminant
  · next d c b a hks =>
    have hks := h.polynomial hks
    have hq : Cubic.SymbolsIn S ⟨a, b, c, d⟩ :=
      ⟨hks _ (by simp), hks _ (by simp), hks _ (by simp), hks _ (by simp)⟩
    cases hr
    exact happend hq.roots hq.discriminant
  · cases hr

/-! ### Renditions -/

/-- The expressions that show an answer have no identifiers but its symbols. -/
theorem Answer.SymbolsIn.rendition {x : Answer} (h : x.SymbolsIn S) :
    (x.rendition p).exact.IdentifiersIn S ∧ (x.rendition p).approximate.IdentifiersIn S := by
  have hundefined : Expression.undefined.IdentifiersIn S :=
    Expression.identifiersIn_of_eq_nil (by rw [Expression.identifiers])
  have hunreal : Expression.unreal.IdentifiersIn S :=
    Expression.identifiersIn_of_eq_nil (by rw [Expression.identifiers])
  cases x with
  | exact f =>
    unfold Answer.rendition Rendition.ofForm
    dsimp only
    split
    · exact ⟨hundefined, hundefined⟩
    · split
      · exact ⟨hunreal, hunreal⟩
      · exact ⟨Form.display_identifiersIn h, Complex.display_identifiersIn _ _⟩
  | unreal => exact ⟨hunreal, hunreal⟩
  | approximate z =>
    unfold Answer.rendition Rendition.ofComplex
    dsimp only
    split
    · exact ⟨hundefined, hundefined⟩
    · split
      · exact ⟨hunreal, hunreal⟩
      · exact ⟨Complex.display_identifiersIn _ _, Complex.display_identifiersIn _ _⟩

end Resolvent

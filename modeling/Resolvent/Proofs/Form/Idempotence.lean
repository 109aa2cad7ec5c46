import Resolvent.Proofs.Form.Recursion
import Resolvent.Proofs.Form.Stability

/-!
# Normalisation is idempotent

What normalisation leaves of a product is merged (`Monomial.Merged`): the atoms are in order, the
exponents are words other than zero, the imaginary unit has the exponent one, and so have the roots,
of which there is one for each index and nothing can be extracted from it.  This holds of the
monomials of every form that operations make (`Form.Constructible.merged`).

Nothing more is to be multiplied out of such a monomial either, so its factors are normalised to the
monomial itself.  The one exception are radicals with an index beyond `Form.maxStableIndex` whose
exponent was clamped to a word; normal forms have none, as their exponents are below the indices
(`Form.Arranged.radicalsReduced`).  So it makes no difference that `Form.mul` does not normalise
products with constants (`Form.Constructible.idempotent`).
-/

namespace Resolvent

/-- The factors are in order, with words other than zero as exponents and the imaginary unit to the
first power, and the roots are merged. -/
structure Monomial.Merged (m : Monomial) : Prop where
  /-- The atoms are in order. -/
  sorted : Sorted m.factors
  /-- The exponents are words other than zero. -/
  exponent : ∀ x ∈ m.factors, x.2 ≠ 0 ∧ Width.isInt32 x.2 = true
  /-- The imaginary unit has the exponent one. -/
  unit : ∀ x ∈ m.factors, x.1 = .imaginaryUnit → x.2 = 1
  /-- The roots are merged. -/
  roots : m.RootsMerged

/-- A radical whose index is so large that its exponent may have been clamped has an exponent below
the index, or one whose whole powers have no expansion. -/
def Form.RadicalsReduced (f : Form) : Prop :=
  ∀ t ∈ f.terms, ∀ {g : Form} {n : Nat} {k : Int}, (.radical g n, k) ∈ t.1.factors →
    maxStableIndex < n → 0 < k ∧ k < n ∨ g.pow? (k / n) = none

namespace Monomial

variable {m : Monomial}

theorem merged_one : Merged one :=
  ⟨List.Pairwise.nil, nofun, nofun, ⟨nofun, nofun, nofun⟩⟩

theorem Merged.without (hm : m.Merged) (a : Atom) : (m.without a).Merged where
  sorted := hm.sorted.sublist List.filter_sublist
  exponent x hx := hm.exponent x (List.mem_filter.1 hx).1
  unit x hx := hm.unit x (List.mem_filter.1 hx).1
  roots := ⟨fun hx => hm.roots.exponent (List.mem_filter.1 hx).1,
    fun hx => hm.roots.free (List.mem_filter.1 hx).1,
    fun hq hr => hm.roots.unique (List.mem_filter.1 hq).1 (List.mem_filter.1 hr).1⟩

/-- Factors in order are collected to themselves. -/
theorem collectFactors_of_sorted {factors : List (Atom × Int)} (hsorted : Sorted factors)
    (hne : ∀ x ∈ factors, x.2 ≠ 0) : collectFactors factors = factors := by
  refine eq_of_sorted (sorted_collectFactors _) hsorted fun x => ?_
  rw [mem_collectFactors_of_pairwise hsorted.pairwise_ne]
  exact ⟨And.right, fun hx => ⟨hne x hx, hx⟩⟩

end Monomial

namespace Form

variable {f g : Form} {m : Monomial} {x : Atom × Int} {factors : List (Atom × Int)}

/-! ### What is kept is merged -/

/-- Nothing of a first root stays under it. -/
theorem restProduct_one (radicands : List (Rat × Int)) : restProduct 1 radicands = 1 := by
  induction radicands with
  | nil => rfl
  | cons x radicands ih =>
    have hx : restPower 1 x = 1 := by simp [restPower, Rational.power?, Width.isInt32, Rat.pow]
    rw [restProduct_cons, ih, hx, mul_one]

theorem rootsMerged_kept (power : Form → Int → Option Form) (factors : List (Atom × Int)) :
    Monomial.RootsMerged ⟨Monomial.collectFactors
      ((shares power (Monomial.collectFactors factors)).flatMap Share.kept)⟩ := by
  have hroot : ∀ {q : Rat} {n : Nat} {k : Int}, (.root q n, k) ∈ Monomial.collectFactors
      ((shares power (Monomial.collectFactors factors)).flatMap Share.kept) →
      (.root q n, k) ∈ (rootShare (Monomial.collectFactors factors) n).kept := fun hx =>
    mem_rootShare_of_mem_kept ((Monomial.mem_collectFactors_of_pairwise
      (pairwise_kept power (Monomial.sorted_collectFactors factors))).1 hx).2
  refine ⟨fun hx => ?_, fun {q n k} hx => ?_, fun hq hr => ?_⟩
  · exact (Prod.mk.inj (eq_of_mem_kept_rootShare (hroot hx)).1).2
  · obtain ⟨heq, hne⟩ := eq_of_mem_kept_rootShare (hroot hx)
    obtain ⟨hq, -⟩ := Atom.root.inj (Prod.mk.inj heq).1
    rw [← hq] at hne
    refine ⟨hne, ?_, ?_⟩
    · rw [hq]
      exact PerfectPower.extractWith_extractWith _ _ n
    · rintro rfl
      rw [PerfectPower.extract, PerfectPower.extractWith_of_index_lt_two _ _ Nat.one_lt_two,
        restProduct_one] at hq
      exact hne hq
  · have hq := (Prod.mk.inj (eq_of_mem_kept_rootShare (hroot hq)).1).1
    have hr := (Prod.mk.inj (eq_of_mem_kept_rootShare (hroot hr)).1).1
    exact (Atom.root.inj hq).1.trans (Atom.root.inj hr).1.symm

theorem merged_kept (power : Form → Int → Option Form) (factors : List (Atom × Int)) :
    Monomial.Merged ⟨Monomial.collectFactors
      ((shares power (Monomial.collectFactors factors)).flatMap Share.kept)⟩ := by
  have hmem : ∀ x ∈ Monomial.collectFactors
      ((shares power (Monomial.collectFactors factors)).flatMap Share.kept),
      x.2 ≠ 0 ∧ x ∈ (shares power (Monomial.collectFactors factors)).flatMap Share.kept :=
    fun x hx => (Monomial.mem_collectFactors_of_pairwise
      (pairwise_kept power (Monomial.sorted_collectFactors factors))).1 hx
  exact ⟨Monomial.sorted_collectFactors _,
    fun x hx => ⟨(hmem x hx).1, isInt32_of_mem_kept (hmem x hx).2⟩,
    fun x hx => exponent_of_mem_kept (hmem x hx).2, rootsMerged_kept power factors⟩

/-- The monomials of forms that operations make are merged. -/
theorem Constructible.merged (hf : f.Constructible) : f.MonomialsIn Monomial.Merged :=
  (monomialsThroughout_iff.2 (hf.monomialsIn_of_complete (complete_monomialsThroughout
    Monomial.merged_one merged_kept fun _ hm => hm.without _))).1

/-! ### Merged factors are kept -/

/-- A factor that is not moved and no root is its own share. -/
theorem share_of_unmoved {normalize : Rat → List (Atom × Int) → Form} (hm : m.Merged)
    (hx : x ∈ m.factors) (h : Unmoved x) (hroot : ∀ q n, x.1 ≠ .root q n) :
    (share (powWith normalize) x).kept = [x] ∧
      (share (powWith normalize) x).coefficient = 1 := by
  obtain ⟨hne, hword⟩ := hm.exponent x hx
  have hunit := hm.unit x hx
  obtain ⟨a, k⟩ := x
  have hclamp : Width.clamp32 k = k := clamp32_eq hword
  cases a with
  | imaginaryUnit =>
    obtain rfl : k = 1 := hunit rfl
    exact ⟨rfl, rfl⟩
  | root q n => exact absurd rfl (hroot q n)
  | radical f n =>
    obtain ⟨-, hzero | hnone⟩ := h
    · -- all of the exponent is rest
      have hrest : k % (n : Int) = k := by
        have := Int.mul_ediv_add_emod k n
        rw [hzero] at this
        omega
      simp [share, radicalShare, hzero, powWith_zero, hrest, hclamp, show k ≠ 0 from hne]
    · simp [share, radicalShare, powWith_eq_none_iff.2 hnone, hclamp]
  | reciprocal f =>
    simp only [share, reciprocalShare]
    split
    · next hneg =>
      have hnone := h.resolve_left (not_le.2 hneg)
      simp [powWith_eq_none_iff.2 (.inl hnone), hclamp]
    · simp [hclamp]
  | _ => simp [share, hclamp]

theorem keptBy_of_merged (normalize : Rat → List (Atom × Int) → Form) (hm : m.Merged)
    (h : ∀ x ∈ m.factors, Unmoved x) : m.KeptBy (powWith normalize) where
  sorted := hm.sorted
  ne_zero x hx := (hm.exponent x hx).1
  roots := hm.roots
  share x hx := share_of_unmoved hm hx (h x hx)

/-- Normalisation leaves merged factors alone that are not moved. -/
theorem ofFactors_of_merged (hm : m.Merged) (h : ∀ x ∈ m.factors, Unmoved x) (c : Rat) :
    ofFactors c m.factors = ofTerm m c := by
  rw [ofFactors_eq_normalizeWith, mul_eq, pow?_eq]
  by_cases hc : c = 0
  · rw [normalizeWith, if_pos hc, ofTerm, if_pos hc]
  · have hcollect := Monomial.collectFactors_of_sorted hm.sorted fun x hx => (hm.exponent x hx).1
    have hones := foldl_mulWith_one ofFactors fun g hg => eq_one_of_unmoved (g := g) ofFactors h hg
    rw [normalizeWith_eq _ _ hc, hcollect]
    dsimp only
    rw [hones, if_pos (by rfl), (keptBy_of_merged ofFactors hm h).sharedTerm_eq]

/-! ### Terms of forms that operations make -/

/-- Radicals with exponents below their indices, as normal forms have them, are reduced. -/
theorem Arranged.radicalsReduced (hf : f.Arranged) : f.RadicalsReduced := fun t ht _ _ _ hx _ =>
  .inl ((hf.terms t ht).2.exponents _ hx)

theorem Constructible.unmoved (hf : f.Constructible) (hr : f.RadicalsReduced) {t : Monomial × Rat}
    (ht : t ∈ f.terms) : ∀ x ∈ t.1.factors, Unmoved x := by
  have hlasting := throughout_lasting_iff.1 hf.throughout_lasting t ht
  rintro ⟨a, k⟩ hx
  cases a with
  | radical g n =>
    rcases Nat.lt_or_ge maxStableIndex n with hlarge | hsmall
    · refine ⟨clamp32_eq ((hf.merged t ht).exponent _ hx).2, ?_⟩
      rcases hr t ht hx hlarge with ⟨hpos, hlt⟩ | hnone
      · exact .inl (Int.ediv_eq_zero_of_lt hpos.le hlt)
      · exact .inr (powWith_eq_none_iff.1 hnone)
    · exact (hlasting _ hx).1 hsmall
  | reciprocal g =>
    have hlarge : k < 0 → (maxExpandedPower : Int) < -k := (hlasting _ hx).1
    show 0 ≤ k ∨ maxExpandedPower < (-k).natAbs
    omega
  | _ => trivial

/-- The factors of a term are normalised to the term, with any coefficient. -/
theorem Constructible.ofFactors_eq_ofTerm (hf : f.Constructible) (hr : f.RadicalsReduced)
    {t : Monomial × Rat} (ht : t ∈ f.terms) (c : Rat) : ofFactors c t.1.factors = ofTerm t.1 c :=
  ofFactors_of_merged (hf.merged t ht) (hf.unmoved hr ht) c

/-! ### Products with constants -/

/-- The product of two forms with every pair of terms normalised, constants as well. -/
def mulEach (f g : Form) : Form :=
  sumAll (f.terms.flatMap fun s =>
    g.terms.map fun t => ofFactors (s.2 * t.2) (s.1.factors ++ t.1.factors))

/-- The product with a constant is what normalisation makes of it. -/
theorem mulTermWith_eq_ofFactors {s t : Monomial × Rat}
    (hs : ofFactors (s.2 * t.2) s.1.factors = ofTerm s.1 (s.2 * t.2))
    (ht : ofFactors (s.2 * t.2) t.1.factors = ofTerm t.1 (s.2 * t.2)) :
    mulTermWith ofFactors s t = ofFactors (s.2 * t.2) (s.1.factors ++ t.1.factors) := by
  unfold mulTermWith
  dsimp only
  split
  · next hone =>
    rw [List.isEmpty_iff.1 hone, List.append_nil, hs]
  · split
    · next hone =>
      rw [List.isEmpty_iff.1 hone, List.nil_append, ht]
    · rfl

theorem Constructible.mul_eq_mulEach (hf : f.Constructible) (hf' : f.RadicalsReduced)
    (hg : g.Constructible) (hg' : g.RadicalsReduced) : f.mul g = f.mulEach g := by
  rw [mul_eq_mulWith, mulWith, mulEach]
  refine congrArg sumAll (List.flatMap_congr fun s hs => List.map_congr_left fun t ht => ?_)
  exact mulTermWith_eq_ofFactors (hf.ofFactors_eq_ofTerm hf' hs _) (hg.ofFactors_eq_ofTerm hg' ht _)

/-- **Normalisation is idempotent.**  In forms that operations make and whose radicals are reduced,
the coefficient and the factors of a term are normalised to that term alone, and products are what
they are with every pair of terms normalised. -/
theorem Constructible.idempotent (hf : f.Constructible) (hf' : f.RadicalsReduced)
    (hg : g.Constructible) (hg' : g.RadicalsReduced) :
    (∀ t ∈ f.terms, ofFactors t.2 t.1.factors = ⟨[t]⟩) ∧ f.mul g = f.mulEach g := by
  refine ⟨fun t ht => ?_, hf.mul_eq_mulEach hf' hg hg'⟩
  rw [hf.ofFactors_eq_ofTerm hf' ht, ofTerm_eq (hf.noZeros t ht).1]

/-- Two sums of a number and a product of roots. -/
theorem idempotent_surds :
    let f := add (ofRat 2) (ofFactors 3 [(.imaginaryUnit, 1), (.root 2 2, 1),
      (.radical (add (ofRat 1) (symbol 0)) 2, 1)])
    let g := add (ofRat 5) (ofFactors 1 [(.symbol 0, -2), (.root 3 2, 1)])
    f.Constructible ∧ f.RadicalsReduced ∧ g.Constructible ∧ g.RadicalsReduced ∧
      f.terms.length = 2 ∧ g.terms.length = 2 ∧
      (∀ t ∈ f.terms, ofFactors t.2 t.1.factors = ⟨[t]⟩) ∧ f.mul g = f.mulEach g := by
  intro f g
  have hradicand : (add (ofRat 1) (symbol 0)).Constructible :=
    .add (.ofRat 1) (.ofAtom (.symbol 0))
  have hf : f.Constructible := .add (.ofRat 2) (.product 3 (List.forall_mem_cons.2
    ⟨.imaginaryUnit, List.forall_mem_cons.2
      ⟨.root 2 2, List.forall_mem_singleton.2 (.radical hradicand 2)⟩⟩))
  have hg : g.Constructible := .add (.ofRat 5) (.product 1 (List.forall_mem_cons.2
    ⟨.symbol 0, List.forall_mem_singleton.2 (.root 3 2)⟩))
  have hfterms : f.terms = [(⟨[]⟩, 2), (⟨[(.imaginaryUnit, 1), (.root 2 2, 1),
      (.radical (add (ofRat 1) (symbol 0)) 2, 1)]⟩, 3)] := by decide +kernel
  have hgterms : g.terms = [(⟨[]⟩, 5), (⟨[(.symbol 0, -2), (.root 3 2, 1)]⟩, 1)] := by
    decide +kernel
  have hf' : f.RadicalsReduced := by
    intro t ht h n k hx
    rw [hfterms] at ht
    rcases List.mem_pair.1 ht with rfl | rfl
    · cases hx
    · simp only [List.mem_cons, Prod.mk.injEq, reduceCtorEq, false_and, false_or, Atom.radical.injEq,
        List.not_mem_nil, or_false] at hx
      obtain ⟨⟨-, rfl⟩, rfl⟩ := hx
      exact fun _ => .inl (by decide)
  have hg' : g.RadicalsReduced := by
    intro t ht h n k hx
    rw [hgterms] at ht
    rcases List.mem_pair.1 ht with rfl | rfl <;> simp at hx
  exact ⟨hf, hf', hg, hg', by rw [hfterms]; rfl, by rw [hgterms]; rfl,
    hf.idempotent hf' hg hg'⟩

end Form

end Resolvent

import Resolvent.Form.Conjugation
import Resolvent.Proofs.Form.Factors
import Resolvent.Proofs.Form.Sorted
import Resolvent.Proofs.Form.Value
import Mathlib.Algebra.Order.Field.Rat

/-!
# The normal form

`Form.Over P f` says that the coefficients of `f` are not zero and that its monomials are of the
class `P`.  Sums, opposites, multiples and parts of forms stay over a class, whatever it is, and so
does a product whose terms are normalised to forms over the class.

`Form.IsNormal` says that a form is stored the way forms are meant to be: terms in order without
coefficients zero, monomials with their atoms in order and none of them to a power that could be
multiplied out, roots free of perfect powers, and reciprocals of sums whose leading coefficient is
one.  The same holds of the forms inside its atoms.

`Monomial.Normal d` is the class of monomials that normal forms of depth `d` are made of.  A form is
normal when it is in order and over such a class (`Form.isNormal_iff`), so sums, multiples and
parts of normal forms are normal (`Form.IsNormal.add` and so on).
-/

namespace Resolvent.Form

/-- The coefficients are not zero and the monomials have a property. -/
def Over (P : Monomial → Prop) (f : Form) : Prop := ∀ t ∈ f.terms, t.2 ≠ 0 ∧ P t.1

variable {P Q : Monomial → Prop} {f g : Form}

theorem Over.imp (h : f.Over P) (himp : ∀ m, P m → Q m) : f.Over Q :=
  fun t ht => ⟨(h t ht).1, himp _ (h t ht).2⟩

theorem Over.and (hP : f.Over P) (hQ : f.Over Q) : f.Over fun m => P m ∧ Q m :=
  fun t ht => ⟨(hP t ht).1, (hP t ht).2, (hQ t ht).2⟩

theorem over_zero (P : Monomial → Prop) : zero.Over P := fun _ ht => absurd ht List.not_mem_nil

theorem over_ofTerm {m : Monomial} (hm : P m) (q : Rat) : (ofTerm m q).Over P := by
  unfold ofTerm
  split
  · exact over_zero P
  · next hq =>
    intro t ht
    rw [List.mem_singleton.1 ht]
    exact ⟨hq, hm⟩

theorem over_ofRat (h : P Monomial.one) (q : Rat) : (ofRat q).Over P := over_ofTerm h q

theorem Over.neg (h : f.Over P) : f.neg.Over P := by
  intro t ht
  obtain ⟨s, hs, rfl⟩ := List.mem_map.1 ht
  exact ⟨neg_ne_zero.2 (h s hs).1, (h s hs).2⟩

theorem Over.scale (h : f.Over P) (k : Rat) : (f.scale k).Over P := by
  unfold Form.scale
  split
  · exact over_zero P
  · next hk =>
    intro t ht
    obtain ⟨s, hs, rfl⟩ := List.mem_map.1 ht
    exact ⟨mul_ne_zero (h s hs).1 hk, (h s hs).2⟩

theorem over_mergeTerm {m : Monomial} {q : Rat} (hm : P m) (hq : q ≠ 0)
    {rest : List (Monomial × Rat) → List (Monomial × Rat)} {ys : List (Monomial × Rat)}
    (hrest : ∀ ys : List (Monomial × Rat), (∀ t ∈ ys, t.2 ≠ 0 ∧ P t.1) →
      ∀ t ∈ rest ys, t.2 ≠ 0 ∧ P t.1)
    (hys : ∀ t ∈ ys, t.2 ≠ 0 ∧ P t.1) : ∀ t ∈ mergeTerm m q rest ys, t.2 ≠ 0 ∧ P t.1 := by
  induction ys with
  | nil =>
    intro t ht
    rcases List.mem_cons.1 ht with rfl | ht
    · exact ⟨hq, hm⟩
    · exact hrest [] hys t ht
  | cons y ys ih =>
    obtain ⟨n, r⟩ := y
    have htail : ∀ t ∈ ys, t.2 ≠ 0 ∧ P t.1 := fun t ht => hys t (List.mem_cons_of_mem _ ht)
    intro t ht
    rw [mergeTerm] at ht
    split at ht
    · rcases List.mem_cons.1 ht with rfl | ht
      · exact ⟨hq, hm⟩
      · exact hrest _ hys t ht
    · split at ht
      · exact hrest _ htail t ht
      · next hsum =>
        rcases List.mem_cons.1 ht with rfl | ht
        · exact ⟨hsum, hm⟩
        · exact hrest _ htail t ht
    · rcases List.mem_cons.1 ht with rfl | ht
      · exact hys _ List.mem_cons_self
      · exact ih htail t ht

theorem over_mergeTerms {xs : List (Monomial × Rat)} (hxs : ∀ t ∈ xs, t.2 ≠ 0 ∧ P t.1) :
    ∀ ys : List (Monomial × Rat), (∀ t ∈ ys, t.2 ≠ 0 ∧ P t.1) →
      ∀ t ∈ mergeTerms xs ys, t.2 ≠ 0 ∧ P t.1 := by
  induction xs with
  | nil => exact fun ys hys => hys
  | cons x xs ih =>
    intro ys hys
    obtain ⟨hq, hm⟩ := hxs x List.mem_cons_self
    exact over_mergeTerm hm hq (ih fun t ht => hxs t (List.mem_cons_of_mem _ ht)) hys

theorem Over.add (hf : f.Over P) (hg : g.Over P) : (f.add g).Over P :=
  over_mergeTerms hf g.terms hg

theorem Over.sub (hf : f.Over P) (hg : g.Over P) : (f.sub g).Over P := hf.add hg.neg

theorem over_sumAll {fs : List Form} (h : ∀ f ∈ fs, f.Over P) : (sumAll fs).Over P :=
  sumAll_of_closed (over_zero P) (fun _ _ => Over.add) h

theorem over_mulTermWith {normalize : Rat → List (Atom × Int) → Form} {s t : Monomial × Rat}
    (hs : P s.1) (ht : P t.1)
    (h : s.1.isOne = false → t.1.isOne = false →
      (normalize (s.2 * t.2) (s.1.factors ++ t.1.factors)).Over P) :
    (mulTermWith normalize s t).Over P := by
  unfold mulTermWith
  dsimp only
  split
  · exact over_ofTerm hs _
  · next ht1 =>
    split
    · exact over_ofTerm ht _
    · next hs1 => exact h (Bool.eq_false_iff.2 hs1) (Bool.eq_false_iff.2 ht1)

theorem over_mulWith {normalize : Rat → List (Atom × Int) → Form} (hf : f.Over P) (hg : g.Over P)
    (h : ∀ s ∈ f.terms, ∀ t ∈ g.terms, s.1.isOne = false → t.1.isOne = false →
      (normalize (s.2 * t.2) (s.1.factors ++ t.1.factors)).Over P) :
    (mulWith normalize f g).Over P := by
  refine over_sumAll fun x hx => ?_
  obtain ⟨s, hs, hx⟩ := List.mem_flatMap.1 hx
  obtain ⟨t, ht, rfl⟩ := List.mem_map.1 hx
  exact over_mulTermWith (hf s hs).2 (hg t ht).2 (h s hs t ht)

theorem Over.realPart (h : f.Over P) : f.realPart.Over P :=
  fun t ht => h t (List.mem_filter.1 ht).1

theorem Over.imaginaryPart (h : f.Over P) (hP : ∀ m, P m → P (m.without .imaginaryUnit)) :
    f.imaginaryPart.Over P := by
  refine over_sumAll fun x hx => ?_
  obtain ⟨t, ht, rfl⟩ := List.mem_map.1 hx
  exact over_ofTerm (hP _ (h t (List.mem_filter.1 ht).1).2) _

theorem Over.conjugate (h : f.Over P) {c : Form} (hc : f.rationalizingConjugate? = some c) :
    c.Over P := by
  obtain ⟨u, -, rfl⟩ := Option.map_eq_some_iff.1 hc
  intro t ht
  obtain ⟨s, hs, rfl⟩ := List.mem_map.1 ht
  refine ⟨?_, (h s hs).2⟩
  dsimp only
  split
  · exact (h s hs).1
  · exact neg_ne_zero.2 (h s hs).1

/-- The coefficients are not zero. -/
def NoZeros (f : Form) : Prop := f.Over fun _ => True

theorem Over.noZeros (h : f.Over P) : f.NoZeros := h.imp fun _ _ => trivial

theorem noZeros_mulWith {normalize : Rat → List (Atom × Int) → Form}
    (h : ∀ c factors, (normalize c factors).NoZeros) (f g : Form) :
    (mulWith normalize f g).NoZeros := by
  refine over_sumAll fun x hx => ?_
  obtain ⟨s, hs, hx⟩ := List.mem_flatMap.1 hx
  obtain ⟨t, ht, rfl⟩ := List.mem_map.1 hx
  exact over_mulTermWith trivial trivial fun _ _ => h _ _

/-- A normalised product has no coefficient zero. -/
theorem noZeros_normalize (n : Nat) (c : Rat) (factors : List (Atom × Int)) :
    (normalize n c factors).NoZeros := by
  induction n generalizing c factors with
  | zero =>
    rw [normalize, normalizeWith]
    split
    · exact over_zero _
    · dsimp only
      split
      · exact over_ofTerm trivial _
      · exact over_ofTerm trivial _
  | succ n ih =>
    rw [normalize, normalizeWith]
    split
    · exact over_zero _
    · dsimp only
      split
      · exact over_ofTerm trivial _
      · exact noZeros_mulWith ih _ _

end Resolvent.Form

namespace Resolvent

/-! ### Definitions -/

namespace Monomial

/-- The exponent of a factor is one that a monomial may have. -/
def ExponentFits : Atom × Int → Prop
  | (.imaginaryUnit, k) | (.root _ _, k) => k = 1
  | (.radical _ n, k) => 0 < k ∧ k < n
  | (_, k) => k ≠ 0

/-- The factors are in order, with exponents that fit and one root of an index at most. -/
structure Arranged (m : Monomial) : Prop where
  /-- The atoms are in order. -/
  sorted : Sorted m.factors
  /-- The exponents fit. -/
  exponents : ∀ x ∈ m.factors, ExponentFits x
  /-- Two roots have different indices. -/
  roots : ∀ {q r : Rat} {n : Nat} {k l : Int},
    (.root q n, k) ∈ m.factors → (.root r n, l) ∈ m.factors → q = r

end Monomial

/-- The terms are in order, their coefficients are not zero, and their monomials are arranged. -/
structure Form.Arranged (f : Form) : Prop where
  /-- The monomials are in order. -/
  sorted : f.Sorted
  /-- The coefficients are not zero and the monomials are arranged. -/
  terms : f.Over Monomial.Arranged

mutual

/-- The atom is one that normal forms are made of. -/
inductive Atom.IsNormal : Atom → Prop
  /-- Symbols are normal. -/
  | symbol (id : Nat) : Atom.IsNormal (.symbol id)
  /-- The circle number is normal. -/
  | pi : Atom.IsNormal .pi
  /-- Euler's number is normal. -/
  | e : Atom.IsNormal .e
  /-- The imaginary unit is normal. -/
  | imaginaryUnit : Atom.IsNormal .imaginaryUnit
  /-- A root is of a positive number other than one from which nothing can be extracted. -/
  | root {q : Rat} {n : Nat} (hq : 0 < q) (hone : q ≠ 1) (hlow : 2 ≤ n) (hhigh : n ≤ 64)
      (hextract : PerfectPower.extract q n = (1, q)) : Atom.IsNormal (.root q n)
  /-- A radical is of a normal form other than zero. -/
  | radical {f : Form} {n : Nat} (hf : Form.IsNormal f) (hne : f ≠ Form.zero) (hlow : 2 ≤ n)
      (hhigh : n ≤ 64) : Atom.IsNormal (.radical f n)
  /-- Functions take normal forms. -/
  | apply (g : Builtin) {args : List Form} (hargs : ∀ f ∈ args, Form.IsNormal f) :
      Atom.IsNormal (.apply g args)
  /-- Powers are of and with normal forms. -/
  | power {f g : Form} (hf : Form.IsNormal f) (hg : Form.IsNormal g) :
      Atom.IsNormal (.power f g)
  /-- A reciprocal is of a normal sum whose leading coefficient is one. -/
  | reciprocal {f : Form} (hf : Form.IsNormal f) (hsize : 2 ≤ f.terms.length)
      (hlead : f.leadingCoefficient = 1) : Atom.IsNormal (.reciprocal f)

/-- **The normal form**: terms and factors are arranged, and so are those inside the atoms. -/
inductive Form.IsNormal : Form → Prop
  /-- The form is arranged and made of normal atoms. -/
  | intro {f : Form} (harranged : f.Arranged)
      (hatoms : ∀ t ∈ f.terms, ∀ x ∈ t.1.factors, Atom.IsNormal x.1) : Form.IsNormal f

end

/-- The monomial is arranged and made of normal atoms that are nested at most `d` deep. -/
structure Monomial.Normal (d : Nat) (m : Monomial) : Prop where
  /-- The factors are arranged. -/
  arranged : m.Arranged
  /-- The atoms are normal. -/
  atoms : ∀ x ∈ m.factors, x.1.IsNormal
  /-- The atoms are nested at most `d` deep. -/
  depth : ∀ x ∈ m.factors, x.1.depth ≤ d

/-! ### Depth -/

theorem Monomial.depthFactors_le_iff {factors : List (Atom × Int)} {d : Nat} :
    depthFactors factors ≤ d ↔ ∀ x ∈ factors, x.1.depth ≤ d := by
  induction factors with
  | nil => simp [depthFactors]
  | cons x factors ih =>
    rw [depthFactors, List.forall_mem_cons, ← ih]
    split <;> omega

theorem Form.depthTerms_le_iff {terms : List (Monomial × Rat)} {d : Nat} :
    depthTerms terms ≤ d ↔ ∀ t ∈ terms, ∀ x ∈ t.1.factors, x.1.depth ≤ d := by
  induction terms with
  | nil => simp [depthTerms]
  | cons t terms ih =>
    obtain ⟨⟨factors⟩, q⟩ := t
    rw [depthTerms, List.forall_mem_cons, ← ih, ← Monomial.depthFactors_le_iff, Monomial.depth]
    dsimp only
    split <;> omega

theorem Form.depth_le_iff {f : Form} {d : Nat} :
    f.depth ≤ d ↔ ∀ t ∈ f.terms, ∀ x ∈ t.1.factors, x.1.depth ≤ d := by
  obtain ⟨terms⟩ := f
  rw [Form.depth]
  exact depthTerms_le_iff

namespace Form

variable {f g : Form} {d e : Nat}

theorem Over.depth_le (h : f.Over (Monomial.Normal d)) : f.depth ≤ d :=
  depth_le_iff.2 fun t ht => (h t ht).2.depth

theorem isNormal_of_over (hsorted : f.Sorted) (h : f.Over (Monomial.Normal d)) : f.IsNormal :=
  .intro ⟨hsorted, h.imp fun _ hm => hm.arranged⟩ fun t ht => (h t ht).2.atoms

theorem IsNormal.arranged (h : f.IsNormal) : f.Arranged := by
  cases h with
  | intro harranged => exact harranged

theorem IsNormal.sorted (h : f.IsNormal) : f.Sorted := h.arranged.sorted

theorem IsNormal.over (h : f.IsNormal) (hd : f.depth ≤ d) : f.Over (Monomial.Normal d) := by
  cases h with
  | intro harranged hatoms =>
    exact fun t ht => ⟨(harranged.terms t ht).1,
      (harranged.terms t ht).2, hatoms t ht, depth_le_iff.1 hd t ht⟩

/-- A form is normal when its terms are in order and made of normal monomials. -/
theorem isNormal_iff : f.IsNormal ↔ f.Sorted ∧ f.Over (Monomial.Normal f.depth) :=
  ⟨fun h => ⟨h.sorted, h.over le_rfl⟩, fun h => isNormal_of_over h.1 h.2⟩

end Form

theorem Monomial.Normal.mono {d e : Nat} {m : Monomial} (h : m.Normal d) (hde : d ≤ e) :
    m.Normal e :=
  ⟨h.arranged, h.atoms, fun x hx => (h.depth x hx).trans hde⟩

/-- A power of a single atom is arranged. -/
theorem Monomial.arranged_singleton {x : Atom × Int} (hx : ExponentFits x) :
    (⟨[x]⟩ : Monomial).Arranged := by
  refine ⟨List.pairwise_singleton _ _, List.forall_mem_singleton.2 hx, fun hq hr => ?_⟩
  have hsame := (List.mem_singleton.1 hq).trans (List.mem_singleton.1 hr).symm
  exact (Atom.root.inj (Prod.mk.inj hsame).1).1

theorem Monomial.normal_one (d : Nat) : Monomial.one.Normal d :=
  ⟨⟨List.Pairwise.nil, nofun, nofun⟩, nofun, nofun⟩

/-! ### Sums, multiples and parts -/

namespace Form

variable {f g : Form}

theorem isNormal_ofRat (q : Rat) : (ofRat q).IsNormal :=
  isNormal_of_over (sorted_ofTerm _ _) (over_ofRat (Monomial.normal_one 0) q)

theorem IsNormal.neg (h : f.IsNormal) : f.neg.IsNormal :=
  isNormal_of_over h.sorted.neg (h.over le_rfl).neg

theorem IsNormal.scale (h : f.IsNormal) (k : Rat) : (f.scale k).IsNormal :=
  isNormal_of_over (h.sorted.scale k) ((h.over le_rfl).scale k)

theorem IsNormal.add (hf : f.IsNormal) (hg : g.IsNormal) : (f.add g).IsNormal :=
  isNormal_of_over (hf.sorted.add hg.sorted)
    ((hf.over (le_max_left f.depth g.depth)).add (hg.over (le_max_right _ _)))

theorem IsNormal.sub (hf : f.IsNormal) (hg : g.IsNormal) : (f.sub g).IsNormal := hf.add hg.neg

theorem IsNormal.realPart (h : f.IsNormal) : f.realPart.IsNormal :=
  isNormal_of_over h.sorted.realPart (h.over le_rfl).realPart

theorem normal_without {d : Nat} {m : Monomial} (h : m.Normal d) (a : Atom) :
    (m.without a).Normal d := by
  have hmem : ∀ x ∈ (m.without a).factors, x ∈ m.factors := fun x hx => (List.mem_filter.1 hx).1
  refine ⟨⟨List.Pairwise.filter _ h.arranged.sorted, fun x hx => h.arranged.exponents x (hmem x hx),
    fun hq hr => h.arranged.roots (hmem _ hq) (hmem _ hr)⟩, fun x hx => h.atoms x (hmem x hx),
    fun x hx => h.depth x (hmem x hx)⟩

theorem IsNormal.imaginaryPart (h : f.IsNormal) : f.imaginaryPart.IsNormal :=
  isNormal_of_over (sorted_imaginaryPart f)
    ((h.over le_rfl).imaginaryPart fun _ hm => normal_without hm _)

end Form

end Resolvent

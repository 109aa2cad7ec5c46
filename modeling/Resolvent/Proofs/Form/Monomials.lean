import Resolvent.Form.Conjugation
import Resolvent.Proofs.Form.Closed
import Resolvent.Proofs.Form.Factors
import Resolvent.Proofs.Form.Normalization
import Resolvent.Proofs.Form.Sorted

/-!
# Classes of monomials and what occurs in forms

`Form.MonomialsIn P` says that the monomials of a form are in the class `P`.  Sums, multiples and
conjugates of forms stay within any class.  A class that is closed under normalisation
(`Monomial.Closed`) has the products, powers and inverses of its forms as well
(`Form.MonomialsIn.mul` and so on), whatever its atoms are nested in.

`Form.HasFactor x f` says that a factor, which is an atom with its exponent, stands somewhere in a
form, however deep it is nested.  `Form.Throughout P f` says that all of these have a property.  A
property of atoms that is kept by what normalisation makes of roots (`Atom.Settles`) holds
throughout sums, products, powers and inverses of forms throughout which it holds, and so does a
property of monomials that all products have (`Form.MonomialsThroughout`).
-/

namespace Resolvent

/-- The monomials of the form are in a class. -/
def Form.MonomialsIn (P : Monomial → Prop) (f : Form) : Prop := ∀ t ∈ f.terms, P t.1

/-- A class of monomials, with the class of their atoms, that normalising a product of atoms does
not leave. -/
structure Monomial.Closed (A : Atom → Prop) (P : Monomial → Prop) : Prop where
  /-- The empty product is in the class. -/
  one : P Monomial.one
  /-- The atoms of the monomials are those of the class. -/
  atoms : ∀ {m : Monomial}, P m → ∀ x ∈ m.factors, A x.1
  /-- What stays of a product of atoms is in the class. -/
  kept : ∀ (power : Form → Int → Option Form) {factors : List (Atom × Int)},
    (∀ x ∈ factors, A x.1) → P ⟨Monomial.collectFactors
      ((Form.shares power (Monomial.collectFactors factors)).flatMap Form.Share.kept)⟩
  /-- Radicands are made of monomials of the class. -/
  radicand : ∀ {f : Form} {n : Nat}, A (.radical f n) → f.MonomialsIn P
  /-- So are the sums in reciprocals, and nothing else is asked of them. -/
  reciprocal : ∀ {f : Form}, A (.reciprocal f) ↔ f.MonomialsIn P

namespace Form

variable {A : Atom → Prop} {P : Monomial → Prop} {f g : Form}

/-! ### Sums -/

/-- A form whose monomials are all among those of another is in its classes. -/
theorem MonomialsIn.of_monomials (h : g.MonomialsIn P)
    (hsub : ∀ t ∈ f.terms, t.1 ∈ g.terms.map Prod.fst) : f.MonomialsIn P := by
  intro t ht
  obtain ⟨u, hu, heq⟩ := List.mem_map.1 (hsub t ht)
  exact heq ▸ h u hu

theorem monomialsIn_zero : zero.MonomialsIn P := fun _ ht => absurd ht List.not_mem_nil

theorem monomialsIn_ofTerm {m : Monomial} (h : P m) (q : Rat) : (ofTerm m q).MonomialsIn P := by
  unfold ofTerm
  split
  · exact monomialsIn_zero
  · intro t ht
    rw [List.mem_singleton.1 ht]
    exact h

theorem monomialsIn_ofRat (h : P Monomial.one) (q : Rat) : (ofRat q).MonomialsIn P :=
  monomialsIn_ofTerm h q

theorem MonomialsIn.neg (h : f.MonomialsIn P) : f.neg.MonomialsIn P :=
  h.of_monomials fun t ht => by
    obtain ⟨s, hs, rfl⟩ := List.mem_map.1 ht
    exact List.mem_map.2 ⟨s, hs, rfl⟩

theorem MonomialsIn.scale (h : f.MonomialsIn P) (k : Rat) : (f.scale k).MonomialsIn P := by
  unfold Form.scale
  split
  · exact monomialsIn_zero
  · refine h.of_monomials fun t ht => ?_
    obtain ⟨s, hs, rfl⟩ := List.mem_map.1 ht
    exact List.mem_map.2 ⟨s, hs, rfl⟩

theorem MonomialsIn.add (hf : f.MonomialsIn P) (hg : g.MonomialsIn P) :
    (f.add g).MonomialsIn P := by
  intro t ht
  rcases fst_of_mem_mergeTerms f.terms g.terms t ht with h | h
  · obtain ⟨u, hu, heq⟩ := List.mem_map.1 h
    exact heq ▸ hf u hu
  · obtain ⟨u, hu, heq⟩ := List.mem_map.1 h
    exact heq ▸ hg u hu

theorem monomialsIn_sumAll {fs : List Form} (h : ∀ f ∈ fs, f.MonomialsIn P) :
    (sumAll fs).MonomialsIn P :=
  sumAll_of_closed monomialsIn_zero (fun _ _ => MonomialsIn.add) h

theorem MonomialsIn.realPart (h : f.MonomialsIn P) : f.realPart.MonomialsIn P :=
  fun t ht => h t (List.mem_filter.1 ht).1

theorem MonomialsIn.imaginaryPart (h : f.MonomialsIn P)
    (hP : ∀ m, P m → P (m.without .imaginaryUnit)) : f.imaginaryPart.MonomialsIn P := by
  refine monomialsIn_sumAll fun x hx => ?_
  obtain ⟨t, ht, rfl⟩ := List.mem_map.1 hx
  exact monomialsIn_ofTerm (hP _ (h t (List.mem_filter.1 ht).1)) _

theorem MonomialsIn.conjugate (h : f.MonomialsIn P) (hc : f.rationalizingConjugate? = some g) :
    g.MonomialsIn P := by
  obtain ⟨u, -, rfl⟩ := Option.map_eq_some_iff.1 hc
  refine h.of_monomials fun t ht => ?_
  obtain ⟨s, hs, rfl⟩ := List.mem_map.1 ht
  exact List.mem_map.2 ⟨s, hs, rfl⟩

/-! ### Products, powers and inverses -/

section Normalize

/-- Normalising a product of atoms of the class makes monomials of the class. -/
def NormalizesInto (A : Atom → Prop) (P : Monomial → Prop)
    (normalize : Rat → List (Atom × Int) → Form) : Prop :=
  ∀ c factors, (∀ x ∈ factors, A x.1) → (normalize c factors).MonomialsIn P

variable {normalize : Rat → List (Atom × Int) → Form} (hclosed : Monomial.Closed A P)
  (hn : NormalizesInto A P normalize)

include hclosed hn

theorem MonomialsIn.mulWith (hf : f.MonomialsIn P) (hg : g.MonomialsIn P) :
    (mulWith normalize f g).MonomialsIn P := by
  refine monomialsIn_sumAll fun h hh => ?_
  obtain ⟨s, hs, hh⟩ := List.mem_flatMap.1 hh
  obtain ⟨t, ht, rfl⟩ := List.mem_map.1 hh
  unfold mulTermWith
  dsimp only
  split
  · exact monomialsIn_ofTerm (hf s hs) _
  · split
    · exact monomialsIn_ofTerm (hg t ht) _
    · exact hn _ _ fun x hx => (List.mem_append.1 hx).elim (hclosed.atoms (hf s hs) x)
        (hclosed.atoms (hg t ht) x)

theorem MonomialsIn.normalize_scaleExponents {m : Monomial} {q : Rat}
    (h : f.MonomialsIn P) (hm : f.singleTerm? = some (m, q)) (c : Rat) (k : Int) :
    (normalize c (m.scaleExponents k)).MonomialsIn P := by
  have hmem : (m, q) ∈ f.terms := by rw [terms_of_singleTerm? hm]; exact List.mem_singleton_self _
  refine hn _ _ fun x hx => ?_
  obtain ⟨y, hy, rfl⟩ := List.mem_map.1 hx
  exact hclosed.atoms (h (m, q) hmem) y hy

theorem MonomialsIn.powNatWith (h : f.MonomialsIn P) (n : Nat) :
    (powNatWith normalize f n).MonomialsIn P :=
  powNatWith_of_closed (fun _ _ => MonomialsIn.mulWith hclosed hn)
    (monomialsIn_ofRat hclosed.one 1) h fun _ _ hm => h.normalize_scaleExponents hclosed hn hm _ _

theorem MonomialsIn.reciprocalOf (h : f.MonomialsIn P) :
    (reciprocalOf normalize f).MonomialsIn P := by
  refine hn _ _ fun x hx => ?_
  rw [List.mem_singleton.1 hx]
  exact hclosed.reciprocal.2 (h.scale _)

theorem MonomialsIn.inverseWith (h : f.MonomialsIn P) {budget : Nat}
    (hg : inverseWith normalize budget f = some g) : g.MonomialsIn P :=
  inverseWith_of_closed (fun _ _ => MonomialsIn.mulWith hclosed hn)
    (fun _ _ => MonomialsIn.mulWith hclosed hn) (fun _ => id) (fun _ _ => MonomialsIn.conjugate)
    (fun _ _ _ hf hm => hf.normalize_scaleExponents hclosed hn hm _ _)
    (fun _ hf => hf.reciprocalOf hclosed hn) h hg

theorem MonomialsIn.powWith (h : f.MonomialsIn P) {k : Int} (hg : powWith normalize f k = some g) :
    g.MonomialsIn P := by
  unfold Form.powWith at hg
  split at hg
  · cases hg
  · split at hg
    · obtain ⟨i, hi, rfl⟩ := Option.map_eq_some_iff.1 hg
      exact (h.inverseWith hclosed hn hi).powNatWith hclosed hn _
    · cases hg
      exact h.powNatWith hclosed hn _

end Normalize

variable (hclosed : Monomial.Closed A P)

include hclosed

theorem normalizesInto_normalizeWith {multiply : Form → Form → Form}
    {power : Form → Int → Option Form}
    (hmultiply : ∀ f g, f.MonomialsIn P → g.MonomialsIn P → (multiply f g).MonomialsIn P)
    (hpower : ∀ f k g, f.MonomialsIn P → power f k = some g → g.MonomialsIn P) :
    NormalizesInto A P (normalizeWith multiply power) := by
  intro c factors h
  by_cases hc : c = 0
  · rw [normalizeWith, if_pos hc]
    exact monomialsIn_zero
  have hcollected : ∀ x ∈ Monomial.collectFactors factors, A x.1 := by
    intro x hx
    obtain ⟨k, hk⟩ := Monomial.exists_of_mem_collectFactors hx
    exact h (x.1, k) hk
  have hterm : ∀ c,
      (sharedTerm c (shares power (Monomial.collectFactors factors))).MonomialsIn P :=
    fun c => monomialsIn_ofTerm (hclosed.kept power h) _
  have hexpanded : ∀ g ∈ (shares power (Monomial.collectFactors factors)).flatMap Share.expanded,
      g.MonomialsIn P := by
    intro g hg
    rcases exists_of_mem_expanded hg with ⟨f, n, k, hx, hg⟩ | ⟨f, k, hx, -, hg⟩
    · exact hpower _ _ _ (hclosed.radicand (hcollected _ hx)) hg
    · exact hpower _ _ _ (hclosed.reciprocal.1 (hcollected _ hx)) hg
  have hfold : ∀ (gs : List Form), (∀ g ∈ gs, g.MonomialsIn P) → ∀ f, f.MonomialsIn P →
      (gs.foldl multiply f).MonomialsIn P := by
    intro gs hgs
    induction gs with
    | nil => exact fun f hf => hf
    | cons g gs ih =>
      intro f hf
      exact ih (fun k hk => hgs k (List.mem_cons_of_mem _ hk)) _
        (hmultiply f g hf (hgs g List.mem_cons_self))
  rw [normalizeWith_eq _ _ hc]
  dsimp only
  split
  · exact hterm c
  · exact hmultiply _ _ (hterm c) (hfold _ hexpanded one (monomialsIn_ofRat hclosed.one 1))

/-- Normalisation does not leave a closed class. -/
theorem normalizesInto_normalize (n : Nat) : NormalizesInto A P (normalize n) := by
  induction n with
  | zero => exact normalizesInto_normalizeWith hclosed (fun _ _ hf _ => hf) nofun
  | succ n ih =>
    exact normalizesInto_normalizeWith hclosed (fun _ _ hf hg => hf.mulWith hclosed ih hg)
      fun _ _ _ hf hg => hf.powWith hclosed ih hg

theorem monomialsIn_ofFactors (c : Rat) {factors : List (Atom × Int)}
    (h : ∀ x ∈ factors, A x.1) : (ofFactors c factors).MonomialsIn P :=
  normalizesInto_normalize hclosed _ c factors h

theorem monomialsIn_ofAtom {a : Atom} (h : A a) : (ofAtom a).MonomialsIn P :=
  monomialsIn_ofFactors hclosed 1 fun x hx => by rwa [List.mem_singleton.1 hx]

theorem MonomialsIn.mul (hf : f.MonomialsIn P) (hg : g.MonomialsIn P) : (f.mul g).MonomialsIn P :=
  hf.mulWith hclosed (normalizesInto_normalize hclosed _) hg

theorem MonomialsIn.pow (h : f.MonomialsIn P) {k : Int} (hg : f.pow? k = some g) :
    g.MonomialsIn P :=
  h.powWith hclosed (normalizesInto_normalize hclosed _) hg

theorem MonomialsIn.inverse (h : f.MonomialsIn P) (hg : f.inverse? = some g) : g.MonomialsIn P :=
  h.inverseWith hclosed (normalizesInto_normalize hclosed _) hg

theorem MonomialsIn.divide (hf : f.MonomialsIn P) (hg : g.MonomialsIn P) {q : Form}
    (hq : f.divide? g = some q) : q.MonomialsIn P := by
  obtain ⟨i, hi, rfl⟩ := Option.map_eq_some_iff.1 hq
  exact hf.mul hclosed (hg.inverse hclosed hi)

end Form

/-! ### Factors that occur in a form -/

mutual

/-- The factor stands inside the atom. -/
inductive Atom.HasFactor (x : Atom × Int) : Atom → Prop
  /-- In the radicand. -/
  | radical {f : Form} {n : Nat} (h : Form.HasFactor x f) : Atom.HasFactor x (.radical f n)
  /-- In an argument. -/
  | apply {g : Builtin} {args : List Form} {f : Form} (hf : f ∈ args) (h : Form.HasFactor x f) :
      Atom.HasFactor x (.apply g args)
  /-- In the base of a power. -/
  | base {f g : Form} (h : Form.HasFactor x f) : Atom.HasFactor x (.power f g)
  /-- In the exponent of a power. -/
  | exponent {f g : Form} (h : Form.HasFactor x g) : Atom.HasFactor x (.power f g)
  /-- In the sum of a reciprocal. -/
  | reciprocal {f : Form} (h : Form.HasFactor x f) : Atom.HasFactor x (.reciprocal f)

/-- The factor stands in the form or inside an atom of it. -/
inductive Form.HasFactor (x : Atom × Int) : Form → Prop
  /-- In a term of the form. -/
  | factor {f : Form} {t : Monomial × Rat} (ht : t ∈ f.terms) (hx : x ∈ t.1.factors) :
      Form.HasFactor x f
  /-- Inside an atom of the form. -/
  | inside {f : Form} {t : Monomial × Rat} {y : Atom × Int} (ht : t ∈ f.terms)
      (hy : y ∈ t.1.factors) (h : Atom.HasFactor x y.1) : Form.HasFactor x f

end

variable {P Q : Atom × Int → Prop}

/-- The property holds of all factors inside the atom. -/
def Atom.Throughout (P : Atom × Int → Prop) (a : Atom) : Prop := ∀ x, a.HasFactor x → P x

/-- The property holds of all factors of the form and of all factors inside its atoms. -/
def Form.Throughout (P : Atom × Int → Prop) (f : Form) : Prop := ∀ x, f.HasFactor x → P x

namespace Atom

theorem throughout_radical {f : Form} {n : Nat} :
    (radical f n).Throughout P ↔ f.Throughout P :=
  ⟨fun h x hx => h x (.radical hx), fun h x hx => by cases hx with | radical hx => exact h x hx⟩

theorem throughout_apply {g : Builtin} {args : List Form} :
    (apply g args).Throughout P ↔ ∀ f ∈ args, f.Throughout P :=
  ⟨fun h _ hf x hx => h x (.apply hf hx),
    fun h x hx => by cases hx with | apply hf hx => exact h _ hf x hx⟩

theorem throughout_power {f g : Form} :
    (power f g).Throughout P ↔ f.Throughout P ∧ g.Throughout P := by
  refine ⟨fun h => ⟨fun x hx => h x (.base hx), fun x hx => h x (.exponent hx)⟩, fun h x hx => ?_⟩
  cases hx with
  | base hx => exact h.1 x hx
  | exponent hx => exact h.2 x hx

theorem throughout_reciprocal {f : Form} :
    (reciprocal f).Throughout P ↔ f.Throughout P :=
  ⟨fun h x hx => h x (.reciprocal hx),
    fun h x hx => by cases hx with | reciprocal hx => exact h x hx⟩

theorem throughout_root (q : Rat) (n : Nat) : (root q n).Throughout P := nofun

end Atom

namespace Form

variable {f g : Form}

theorem throughout_iff :
    f.Throughout P ↔ ∀ t ∈ f.terms, ∀ x ∈ t.1.factors, P x ∧ x.1.Throughout P := by
  constructor
  · exact fun h t ht x hx => ⟨h x (.factor ht hx), fun y hy => h y (.inside ht hx hy)⟩
  · intro h x hx
    cases hx with
    | factor ht hx => exact (h _ ht _ hx).1
    | inside ht hy hx => exact (h _ ht _ hy).2 x hx

theorem Throughout.imp (h : f.Throughout P) (hPQ : ∀ x, P x → Q x) : f.Throughout Q :=
  fun x hx => hPQ x (h x hx)

end Form

/-! ### Properties of atoms -/

variable {A : Atom → Prop}

/-- The property holds of the atom and of all atoms inside it. -/
def Atom.Everywhere (A : Atom → Prop) (a : Atom) : Prop := A a ∧ a.Throughout fun x => A x.1

/-- The property holds of all atoms of the monomial and of all atoms inside these. -/
def Monomial.Everywhere (A : Atom → Prop) (m : Monomial) : Prop :=
  ∀ x ∈ m.factors, x.1.Everywhere A

/-- The property holds of all atoms of the form and of all atoms inside these. -/
def Form.Everywhere (A : Atom → Prop) (f : Form) : Prop := f.Throughout fun x => A x.1

/-- A property of atoms that all reciprocals have, and that a root has which is made of roots that
have it. -/
structure Atom.Settles (A : Atom → Prop) : Prop where
  /-- Reciprocals have the property. -/
  reciprocal : ∀ f, A (.reciprocal f)
  /-- The root that is made of the roots with an index has the property. -/
  rootShare : ∀ {factors : List (Atom × Int)} {n : Nat}, n ∈ Form.rootIndices factors →
    (∀ x ∈ factors, A x.1) → ∀ y ∈ (Form.rootShare factors n).kept, A y.1

namespace Form

variable {f g : Form}

theorem everywhere_iff : f.Everywhere A ↔ f.MonomialsIn (Monomial.Everywhere A) := throughout_iff

/-- What is kept of a product of atoms are its atoms and roots made of them. -/
theorem everywhere_of_mem_kept (hroot : ∀ {factors : List (Atom × Int)} {n : Nat},
    n ∈ rootIndices factors → (∀ x ∈ factors, A x.1) → ∀ y ∈ (rootShare factors n).kept, A y.1)
    {power : Form → Int → Option Form} {factors : List (Atom × Int)}
    (h : ∀ x ∈ factors, x.1.Everywhere A) :
    ∀ y ∈ (shares power factors).flatMap Share.kept, y.1.Everywhere A := by
  intro y hy
  rcases exists_of_mem_kept hy with ⟨x, hx, hy⟩ | ⟨n, hn, hy⟩
  · rw [atom_of_mem_kept_share hy]
    exact h x hx
  · refine ⟨hroot hn (fun x hx => (h x hx).1) y hy, ?_⟩
    rw [(eq_of_mem_kept_rootShare hy).1]
    exact Atom.throughout_root _ _

/-- The monomial that is kept of a product has the property where the atoms of the product do. -/
theorem everywhere_kept (hroot : ∀ {factors : List (Atom × Int)} {n : Nat},
    n ∈ rootIndices factors → (∀ x ∈ factors, A x.1) → ∀ y ∈ (rootShare factors n).kept, A y.1)
    (power : Form → Int → Option Form) {factors : List (Atom × Int)}
    (h : ∀ x ∈ factors, x.1.Everywhere A) :
    Monomial.Everywhere A ⟨Monomial.collectFactors
      ((shares power (Monomial.collectFactors factors)).flatMap Share.kept)⟩ :=
  Monomial.forall_collectFactors
    (everywhere_of_mem_kept hroot (Monomial.forall_collectFactors h))

/-- Normalisation does not leave the forms throughout which the property holds. -/
theorem closed_everywhere (hA : Atom.Settles A) :
    Monomial.Closed (Atom.Everywhere A) (Monomial.Everywhere A) where
  one := fun _ hx => absurd hx List.not_mem_nil
  atoms := fun h => h
  kept := everywhere_kept hA.rootShare
  radicand := fun h => everywhere_iff.1 (Atom.throughout_radical.1 h.2)
  reciprocal := by
    intro f
    rw [← everywhere_iff, Atom.Everywhere, Atom.throughout_reciprocal]
    exact and_iff_right (hA.reciprocal f)

end Form

/-! ### Properties of monomials -/

/-- The forms that the atom is made of. -/
def Atom.operands : Atom → List Form
  | .radical f _ | .reciprocal f => [f]
  | .apply _ args => args
  | .power f g => [f, g]
  | _ => []

theorem Atom.throughout_iff {a : Atom} :
    a.Throughout P ↔ ∀ f ∈ a.operands, f.Throughout P := by
  cases a with
  | radical f n => simp [operands, throughout_radical]
  | apply g args => exact throughout_apply
  | power f g => simp [operands, throughout_power]
  | reciprocal f => simp [operands, throughout_reciprocal]
  | _ => exact ⟨fun _ _ hf => absurd hf List.not_mem_nil, fun _ => nofun⟩

/-- The property holds of the monomials of all forms inside the atom. -/
def Atom.MonomialsThroughout (Q : Monomial → Prop) (a : Atom) : Prop :=
  a.Everywhere fun b => ∀ f ∈ b.operands, f.MonomialsIn Q

/-- The property holds of the monomials of the form and of all forms inside its atoms. -/
def Form.MonomialsThroughout (Q : Monomial → Prop) (f : Form) : Prop :=
  f.MonomialsIn Q ∧ f.Everywhere fun b => ∀ g ∈ b.operands, g.MonomialsIn Q

/-- The property holds of the monomial and of the monomials of all forms inside its atoms. -/
def Monomial.Throughout (Q : Monomial → Prop) (m : Monomial) : Prop :=
  Q m ∧ m.Everywhere fun b => ∀ g ∈ b.operands, g.MonomialsIn Q

variable {Q : Monomial → Prop}

theorem Atom.monomialsThroughout_iff {a : Atom} :
    a.MonomialsThroughout Q ↔ ∀ f ∈ a.operands, f.MonomialsThroughout Q := by
  rw [MonomialsThroughout, Everywhere, throughout_iff]
  exact forall₂_and.symm

namespace Form

variable {f : Form}

theorem monomialsThroughout_iff :
    f.MonomialsThroughout Q ↔ f.MonomialsIn (Monomial.Throughout Q) := by
  rw [MonomialsThroughout, everywhere_iff]
  exact forall₂_and.symm

/-- Normalisation does not leave the forms throughout which a property of monomials holds, if it
holds of what is kept of any product. -/
theorem closed_monomialsThroughout (hone : Q Monomial.one)
    (hkept : ∀ (power : Form → Int → Option Form) (factors : List (Atom × Int)),
      Q ⟨Monomial.collectFactors
        ((shares power (Monomial.collectFactors factors)).flatMap Share.kept)⟩) :
    Monomial.Closed (Atom.MonomialsThroughout Q) (Monomial.Throughout Q) where
  one := ⟨hone, fun _ hx => absurd hx List.not_mem_nil⟩
  atoms := fun h => h.2
  kept := by
    intro power factors h
    refine ⟨hkept power factors, everywhere_kept (fun _ _ y hy => ?_) power h⟩
    -- a root is made of no forms
    rw [(eq_of_mem_kept_rootShare hy).1]
    exact List.forall_mem_nil _
  radicand := fun h => monomialsThroughout_iff.1
    (Atom.monomialsThroughout_iff.1 h _ (List.mem_singleton_self _))
  reciprocal := by
    intro f
    rw [Atom.monomialsThroughout_iff, ← monomialsThroughout_iff]
    exact List.forall_mem_singleton

end Form

end Resolvent

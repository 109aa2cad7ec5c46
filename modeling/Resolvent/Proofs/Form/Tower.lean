import Resolvent.Proofs.Form.Inverse
import Resolvent.Proofs.Form.RadicalExtension

/-!
# Adjoining radicals

An extension without radicals is a valuation.  `RadicalExtension.adjoin` adds one more radical, as a
root of `X ^ n - f` where `f` is the value of the radicand.  That polynomial is monic, so the powers
of the root below `n` are independent, whether or not the polynomial is irreducible.  Adjoining the
radicals of a form one after another, inner ones first, gives an extension in which all products of
powers below the indices are independent (`RadicalExtension.exists_free`).

In such an extension these products are coordinates, whose coefficients are known by their values
under twists.  So forms are equal if their values are, in all extensions in which the radicals are
radicals (`Form.eq_of_extensions`).
-/

namespace Resolvent

open Form (Tame)
open Polynomial (X C)

/-- The valuation that gives radicals the value one. -/
def Valuation.flat {K : Type*} [Field K] (v : Valuation K) : Valuation K where
  toFun
    | .radical _ _ => 1
    | a => v a
  imaginaryUnit_sq := v.imaginaryUnit_sq
  root_pow := v.root_pow
  root_mul := v.root_mul
  root_of_pow := v.root_of_pow

theorem Valuation.flat_ne_zero {K : Type*} [Field K] (v : Valuation K)
    (h : ∀ a : Atom, (∀ q n, a ≠ .root q n) → v a ≠ 0) (a : Atom) (ha : ∀ q n, a ≠ .root q n) :
    v.flat a ≠ 0 := by
  have hne := h a ha
  cases a with
  | radical f n => exact one_ne_zero
  | _ => exact hne

/-! ### Independent radicals -/

/-- The exponents of radicals are below their indices. -/
structure Reduced (radicals : List (Form × Nat)) (e : Form × Nat → Nat) : Prop where
  /-- Whole powers are taken out. -/
  lt : ∀ r ∈ radicals, e r < r.2
  /-- Nothing else has an exponent. -/
  eq_zero : ∀ r, r ∉ radicals → e r = 0

/-- Radicals that are not in the list have no exponent in tame factors. -/
theorem exponents_eq_zero_of_notMem {P : List (Form × Nat)} {factors : List (Atom × Int)}
    (h : ∀ x ∈ factors, Tame P x) {r : Form × Nat} (hr : r ∉ P) :
    RadicalExtension.exponents factors r = 0 := by
  rw [RadicalExtension.exponents, Monomial.exponentSum_eq_zero fun x hx heq => ?_]
  · rfl
  · obtain ⟨a, k⟩ := x
    dsimp only at heq
    subst heq
    exact hr (h _ hx).1

theorem Reduced.update {P : List (Form × Nat)} {r : Form × Nat} {e : Form × Nat → Nat}
    (h : Reduced (r :: P) e) (hnew : r ∉ P) : Reduced P (Function.update e r 0) := by
  refine ⟨fun s hs => ?_, fun s hs => ?_⟩
  · rw [Function.update_of_ne (ne_of_mem_of_not_mem hs hnew)]
    exact h.lt s (List.mem_cons_of_mem _ hs)
  · by_cases hself : s = r
    · rw [hself, Function.update_self]
    · rw [Function.update_of_ne hself]
      exact h.eq_zero s (List.not_mem_cons_of_ne_of_not_mem hself hs)

namespace RadicalExtension

variable {K R : Type*} [Field K] [CommRing R] [Algebra K R]

/-- Products of powers of radicals below their indices are independent. -/
def Free (E : RadicalExtension K R) : Prop :=
  LinearIndependent K fun e : {e // Reduced E.radicals e} => E.monomial e

/-- Radicals have the values that the valuation gives them. -/
def ofValuation (v : Valuation K) (hne : ∀ a : Atom, (∀ q n, a ≠ .root q n) → v a ≠ 0)
    (radicals : List (Form × Nat)) : RadicalExtension K K where
  scalar := v.flat
  radicals := radicals
  root r := v (.radical r.1 r.2)
  scalar_radical _ _ := rfl
  scalar_ne_zero := v.flat_ne_zero hne

section OfValuation

variable (v : Valuation K) (hne : ∀ a : Atom, (∀ q n, a ≠ .root q n) → v a ≠ 0)

theorem lawful_ofValuation : (ofValuation v hne []).Lawful := ⟨List.nodup_nil, nofun, nofun, nofun⟩

theorem free_ofValuation : (ofValuation v hne []).Free := by
  have heq : ∀ e : {e // Reduced [] e}, e = ⟨0, nofun, fun _ _ => rfl⟩ :=
    fun e => Subtype.ext (funext fun r => e.2.eq_zero r List.not_mem_nil)
  have : Subsingleton {e // Reduced (ofValuation v hne []).radicals e} :=
    ⟨fun a b => (heq a).trans (heq b).symm⟩
  refine LinearIndependent.of_subsingleton ⟨0, nofun, fun _ _ => rfl⟩ ?_
  rw [monomial_zero]
  exact one_ne_zero

/-- The value of a product in the field is that of the radicals times that of the rest. -/
theorem monomial_ofValuation {P : List (Form × Nat)} (hnodup : P.Nodup)
    {factors : List (Atom × Int)} (h : ∀ x ∈ factors, Tame P x) :
    (ofValuation v hne P).monomial (exponents factors) * Monomial.factorsValue v.flat factors =
      Monomial.factorsValue v factors := by
  change (ofValuation v hne P).product factors = _
  rw [product_eq_prod _ h]
  refine congrArg List.prod (List.map_congr_left fun x hx => ?_)
  have htame := h x hx
  obtain ⟨a, k⟩ := x
  cases a with
  | radical f n =>
    rw [product_radical _ hnodup htame, ← zpow_natCast, Int.toNat_of_nonneg htame.2]
    rfl
  | _ => exact product_singleton _ (by simp) k

end OfValuation

/-! ### Adjoining one -/

section Adjoin

/-- The extension by one more radical, the `n`-th root of a member of the algebra. -/
noncomputable def adjoin (E : RadicalExtension K R) (f : Form) (n : Nat) (c : R) :
    RadicalExtension K (AdjoinRoot (X ^ n - C c)) where
  scalar := E.scalar
  radicals := (f, n) :: E.radicals
  root r := if r = (f, n) then AdjoinRoot.root _ else algebraMap R _ (E.root r)
  scalar_radical := E.scalar_radical
  scalar_ne_zero := E.scalar_ne_zero

variable {E : RadicalExtension K R} {f : Form} {n : Nat} {c : R} (hnew : (f, n) ∉ E.radicals)

theorem adjoin_root_self : (E.adjoin f n c).root (f, n) = AdjoinRoot.root (X ^ n - C c) :=
  if_pos rfl

include hnew

theorem adjoin_root_of_mem {r : Form × Nat} (hr : r ∈ E.radicals) :
    (E.adjoin f n c).root r = algebraMap R _ (E.root r) := by
  exact if_neg (ne_of_mem_of_not_mem hr hnew)

theorem monomial_adjoin (e : Form × Nat → Nat) :
    (E.adjoin f n c).monomial e = AdjoinRoot.root (X ^ n - C c) ^ e (f, n) *
      algebraMap R _ (E.monomial e) := by
  have hrest : E.radicals.map (fun r => (E.adjoin f n c).root r ^ e r) =
      E.radicals.map fun r => algebraMap R (AdjoinRoot (X ^ n - C c)) (E.root r ^ e r) :=
    List.map_congr_left fun r hr => by rw [adjoin_root_of_mem hnew hr, map_pow]
  rw [monomial, show (E.adjoin f n c).radicals = (f, n) :: E.radicals from rfl, List.map_cons,
    List.prod_cons, hrest, adjoin_root_self, monomial, map_list_prod, List.map_map]
  rfl

theorem product_adjoin {factors : List (Atom × Int)} (h : ∀ x ∈ factors, Tame E.radicals x) :
    (E.adjoin f n c).product factors = algebraMap R _ (E.product factors) := by
  rw [product, monomial_adjoin hnew, exponents_eq_zero_of_notMem h hnew, pow_zero, one_mul, product,
    map_mul, ← IsScalarTower.algebraMap_apply]
  rfl

theorem value_adjoin {g : Form} (h : g.Over (Monomial.Tame E.radicals)) :
    (E.adjoin f n c).value g = algebraMap R _ (E.value g) := by
  rw [value, value, map_list_sum, List.map_map]
  refine congrArg List.sum (List.map_congr_left fun t ht => ?_)
  rw [product_adjoin hnew (h t ht).2, Function.comp_apply, map_mul,
    ← IsScalarTower.algebraMap_apply]

theorem Lawful.adjoin (h : E.Lawful) (hn : 0 < n) (hf : f.Over (Monomial.Tame E.radicals))
    (hc : c = E.value f) : (E.adjoin f n c).Lawful := by
  have hover : ∀ {g : Form}, g.Over (Monomial.Tame E.radicals) →
      g.Over (Monomial.Tame (E.adjoin f n c).radicals) :=
    fun hg => hg.tame_mono (List.subset_cons_self _ _)
  refine ⟨h.nodup.cons hnew, ?_, ?_, ?_⟩ <;> refine List.forall_mem_cons.2 ⟨?_, fun r hr => ?_⟩
  · exact hn
  · exact h.pos r hr
  · exact hover hf
  · exact hover (h.radicand r hr)
  · rw [adjoin_root_self, value_adjoin hnew hf, ← hc]
    have hroot := AdjoinRoot.mk_self (f := X ^ n - C c)
    rwa [map_sub, map_pow, AdjoinRoot.mk_X, AdjoinRoot.mk_C, sub_eq_zero] at hroot
  · rw [adjoin_root_of_mem hnew hr, value_adjoin hnew (h.radicand r hr), ← map_pow, h.root_pow r hr]

omit hnew in
/-- The powers of the new radical below its index are independent over what there was. -/
theorem linearIndependent_root_pow [Nontrivial R] (hn : 0 < n) :
    LinearIndependent R fun i : Fin n => AdjoinRoot.root (X ^ n - C c) ^ (i : Nat) := by
  have hmonic := Polynomial.monic_X_pow_sub_C c hn.ne'
  have hdegree : (AdjoinRoot.powerBasis' hmonic).dim = n := by
    rw [AdjoinRoot.powerBasis'_dim, Polynomial.natDegree_X_pow_sub_C]
  have hindependent := (AdjoinRoot.powerBasis' hmonic).basis.linearIndependent.comp _
    (finCongr hdegree.symm).injective
  simp only [PowerBasis.coe_basis, AdjoinRoot.powerBasis'_gen, Function.comp_def, finCongr_apply,
    Fin.val_cast] at hindependent
  exact hindependent

/-- The power of the new radical apart. -/
theorem monomial_adjoin_eq_smul (e : Form × Nat → Nat) : (E.adjoin f n c).monomial e =
    E.monomial (Function.update e (f, n) 0) • AdjoinRoot.root (X ^ n - C c) ^ e (f, n) := by
  have hrest : E.monomial (Function.update e (f, n) 0) = E.monomial e := by
    refine congrArg List.prod (List.map_congr_left fun r hr => ?_)
    rw [Function.update_of_ne (ne_of_mem_of_not_mem hr hnew)]
  rw [monomial_adjoin hnew, hrest, Algebra.smul_def, mul_comm]

/-- **Radicals stay independent** when one more is adjoined. -/
theorem Free.adjoin (h : E.Free) (hpos : ∀ r ∈ E.radicals, 0 < r.2) (hn : 0 < n) :
    (E.adjoin f n c).Free := by
  have hnontrivial : Nontrivial R :=
    ⟨E.monomial 0, 0, h.ne_zero ⟨0, hpos, fun _ _ => rfl⟩⟩
  -- exponents are those of the old radicals and that of the new one
  let split (e : {e // Reduced (E.adjoin f n c).radicals e}) :
      {e // Reduced E.radicals e} × Fin n :=
    (⟨Function.update e.1 (f, n) 0, e.2.update hnew⟩, ⟨e.1 (f, n), e.2.lt _ List.mem_cons_self⟩)
  have hinjective : Function.Injective split := by
    rintro ⟨e, he⟩ ⟨e', he'⟩ heq
    obtain ⟨hrest, hself⟩ := Prod.mk.inj heq
    refine Subtype.ext (funext fun r => ?_)
    by_cases hr : r = (f, n)
    · rw [hr]
      exact Fin.mk.inj hself
    · have hat := congrFun (Subtype.mk.inj hrest) r
      rwa [Function.update_of_ne hr, Function.update_of_ne hr] at hat
  have hproduct := (linearIndependent_smul h (linearIndependent_root_pow (c := c) hn)).comp split
    hinjective
  unfold Free
  simp only [monomial_adjoin_eq_smul hnew]
  exact hproduct

end Adjoin

end RadicalExtension

/-! ### Adjoining many -/

/-- Radicals in an order in which the radicands are made of those that follow. -/
inductive ClosedRadicals : List (Form × Nat) → Prop
  /-- There are no radicals. -/
  | nil : ClosedRadicals []
  /-- One more radical. -/
  | cons {f : Form} {n : Nat} {P : List (Form × Nat)} (hP : ClosedRadicals P) (hn : 0 < n)
      (hnew : (f, n) ∉ P) (hf : f.Over (Monomial.Tame P)) : ClosedRadicals ((f, n) :: P)

namespace ClosedRadicals

variable {P : List (Form × Nat)}

/-- Radicals that suit one factor after the other suit all of them. -/
theorem exists_forall_tame (hP : ClosedRadicals P) {xs : List (Atom × Int)}
    (h : ∀ x ∈ xs, ∀ ⦃P⦄, ClosedRadicals P → ∃ Q, ClosedRadicals Q ∧ P ⊆ Q ∧ Tame Q x) :
    ∃ Q, ClosedRadicals Q ∧ P ⊆ Q ∧ ∀ x ∈ xs, Tame Q x := by
  induction xs generalizing P with
  | nil => exact ⟨P, hP, List.Subset.refl P, nofun⟩
  | cons x xs ih =>
    obtain ⟨Q, hQ, hPQ, hx⟩ := h x List.mem_cons_self hP
    obtain ⟨Q', hQ', hQQ', hxs⟩ := ih hQ fun y hy => h y (List.mem_cons_of_mem _ hy)
    exact ⟨Q', hQ', List.Subset.trans hPQ hQQ', List.forall_mem_cons.2 ⟨hx.mono hQQ', hxs⟩⟩

/-- The radicals of a normal form can be put in such an order. -/
theorem exists_over_tame (hP : ClosedRadicals P) {f : Form} (hf : f.IsNormal) :
    ∃ Q, ClosedRadicals Q ∧ P ⊆ Q ∧ f.Over (Monomial.Tame Q) := by
  induction hd : f.depth using Nat.strong_induction_on generalizing P f with
  | _ d ih =>
    subst hd
    have hover := hf.over le_rfl
    have hfactor : ∀ x ∈ f.terms.flatMap fun t => t.1.factors, ∀ ⦃P⦄, ClosedRadicals P →
        ∃ Q, ClosedRadicals Q ∧ P ⊆ Q ∧ Tame Q x := by
      intro x hx P hP
      obtain ⟨t, ht, hx⟩ := List.mem_flatMap.1 hx
      have hnormal := (hover t ht).2
      have hatom := hnormal.atoms x hx
      have hdepth := hnormal.depth x hx
      have hfits := hnormal.arranged.exponents x hx
      obtain ⟨a, k⟩ := x
      cases hatom with
      | @radical g n hg hne hlow hhigh =>
        obtain ⟨Q, hQ, hPQ, hover⟩ := ih g.depth (Nat.lt_of_succ_le hdepth) hP hg rfl
        by_cases hmem : (g, n) ∈ Q
        · exact ⟨Q, hQ, hPQ, hmem, hfits.1.le⟩
        · exact ⟨(g, n) :: Q, hQ.cons (by omega) hmem hover, List.subset_cons_of_subset _ hPQ,
            List.mem_cons_self, hfits.1.le⟩
      | root hq hone hlow => exact ⟨P, hP, List.Subset.refl P, hq, hlow⟩
      | _ => exact ⟨P, hP, List.Subset.refl P, trivial⟩
    obtain ⟨Q, hQ, hPQ, htame⟩ := hP.exists_forall_tame hfactor
    exact ⟨Q, hQ, hPQ, fun t ht =>
      ⟨(hover t ht).1, fun x hx => htame x (List.mem_flatMap.2 ⟨t, ht, hx⟩)⟩⟩

end ClosedRadicals

/-- **Independent radicals exist**: radicals in such an order can be adjoined to a field. -/
theorem RadicalExtension.exists_free.{u} {K : Type u} [Field K] {P : List (Form × Nat)}
    (hP : ClosedRadicals P) (v : Valuation K)
    (hne : ∀ a : Atom, (∀ q n, a ≠ .root q n) → v a ≠ 0) :
    ∃ (R : Type u) (_ : CommRing R) (_ : Algebra K R) (E : RadicalExtension K R),
      E.scalar = v.flat ∧ E.radicals = P ∧ E.Lawful ∧ E.Free := by
  induction hP with
  | nil => exact ⟨K, _, _, ofValuation v hne [], rfl, rfl, lawful_ofValuation v hne,
      free_ofValuation v hne⟩
  | @cons f n P hP hn hnew hf ih =>
    obtain ⟨R, _, _, E, hscalar, rfl, hlaw, hfree⟩ := ih
    exact ⟨_, _, _, E.adjoin f n (E.value f), hscalar, rfl, hlaw.adjoin hnew hn hf rfl,
      hfree.adjoin hnew hlaw.pos hn⟩

/-! ### Coordinates -/

open RadicalExtension (exponents)

theorem Monomial.Arranged.reduced {P : List (Form × Nat)} {m : Monomial} (harranged : m.Arranged)
    (htame : m.Tame P) (hpos : ∀ r ∈ P, 0 < r.2) :
    Reduced P (RadicalExtension.exponents m.factors) := by
  refine ⟨fun r hr => ?_, fun r hr => ?_⟩
  · have hexponent := Form.exponentSum_radical harranged r.1 (hpos r hr)
    rw [RadicalExtension.exponents]
    omega
  · exact exponents_eq_zero_of_notMem htame hr

open Classical in
/-- The terms of a form with the same exponents of radicals. -/
noncomputable def Form.withExponents (f : Form) (e : Form × Nat → Nat) : Form :=
  ⟨f.terms.filter fun t => exponents t.1.factors = e⟩

open Classical in
theorem Form.value_withExponents {K : Type*} [Field K] (v : Atom → K) (f : Form)
    (e : Form × Nat → Nat) :
    (f.withExponents e).value v = (f.terms.map fun t =>
      if exponents t.1.factors = e then (t.2 : K) * t.1.value v else 0).sum := by
  obtain ⟨terms⟩ := f
  rw [withExponents, Form.value]
  induction terms with
  | nil => rfl
  | cons t terms ih =>
    rw [List.map_cons, List.sum_cons, ← ih, List.filter_cons]
    by_cases h : exponents t.1.factors = e
    · simp [h, termsValue_cons]
    · simp [h]

/-- **Free radicals are coordinates**: if a form has the value zero, so have its terms with the same
exponents of radicals. -/
theorem RadicalExtension.Free.value_withExponents {K R : Type*} [Field K] [CommRing R] [Algebra K R]
    {E : RadicalExtension K R} (hfree : E.Free) (hpos : ∀ r ∈ E.radicals, 0 < r.2) {f : Form}
    (hover : f.Over fun m => m.Arranged ∧ m.Tame E.radicals) (hzero : E.value f = 0)
    (e : Form × Nat → Nat) : (f.withExponents e).value E.scalar = 0 := by
  classical
  let coordinates : (Form × Nat → Nat) →₀ K := (f.terms.map fun t =>
    Finsupp.single (exponents t.1.factors) ((t.2 : K) * t.1.value E.scalar)).sum
  have hmem : coordinates ∈ Finsupp.supported K K {e | Reduced E.radicals e} := by
    refine list_sum_mem fun x hx => ?_
    obtain ⟨t, ht, rfl⟩ := List.mem_map.1 hx
    obtain ⟨-, harranged, htame⟩ := hover t ht
    exact Finsupp.single_mem_supported _ _ (harranged.reduced htame hpos)
  have hvalue : Finsupp.linearCombination K E.monomial coordinates = E.value f := by
    rw [map_list_sum, List.map_map]
    refine congrArg List.sum (List.map_congr_left fun t _ => ?_)
    rw [Function.comp_apply, Finsupp.linearCombination_single, Algebra.smul_def, product, map_mul,
      Monomial.value]
    ring
  have hcoordinates := linearIndepOn_iff.1 hfree coordinates hmem (hvalue.trans hzero)
  have hat := congrArg (Finsupp.applyAddHom e) hcoordinates
  rw [map_list_sum, List.map_map, map_zero] at hat
  rw [Form.value_withExponents]
  refine (congrArg List.sum (List.map_congr_left fun t _ => ?_)).trans hat
  rw [Function.comp_apply, Finsupp.applyAddHom_apply, Finsupp.single_apply]

/-! ### Uniqueness -/

/-- A valuation in which all atoms other than roots and radicals have values other than zero. -/
noncomputable def freeValuation : Valuation ℂ where
  toFun
    | .root q n => Form.unitValuation (.root q n)
    | .imaginaryUnit => Form.unitValuation .imaginaryUnit
    | _ => 1
  imaginaryUnit_sq := Form.unitValuation.imaginaryUnit_sq
  root_pow := Form.unitValuation.root_pow
  root_mul := Form.unitValuation.root_mul
  root_of_pow := Form.unitValuation.root_of_pow

theorem freeValuation_ne_zero (a : Atom) (ha : ∀ q n, a ≠ .root q n) : freeValuation a ≠ 0 := by
  cases a with
  | root q n => exact absurd rfl (ha q n)
  | imaginaryUnit => exact Form.unitValuation.imaginaryUnit_ne_zero
  | _ => exact one_ne_zero

theorem freeValuation_twist_ne_zero (t : Twist ℂ) (a : Atom) (ha : ∀ q n, a ≠ .root q n) :
    freeValuation.twist t a ≠ 0 :=
  mul_ne_zero (freeValuation_ne_zero a ha) (t a).ne_zero

namespace Form

variable {P : List (Form × Nat)} {f g : Form}

/-- Terms with the same exponents of radicals have the product of these radicals in common. -/
theorem value_eq_monomial_mul {K : Type*} [Field K] [CharZero K] (v : Valuation K)
    (hne : ∀ a : Atom, (∀ q n, a ≠ .root q n) → v a ≠ 0) (hP : P.Nodup)
    (hover : f.Over (Monomial.Tame P)) {e : Form × Nat → Nat}
    (he : ∀ t ∈ f.terms, exponents t.1.factors = e) :
    f.value v = (RadicalExtension.ofValuation v hne P).monomial e * f.value v.flat := by
  rw [value, value, termsValue, termsValue, ← List.sum_map_mul_left]
  refine congrArg List.sum (List.map_congr_left fun t ht => ?_)
  rw [Monomial.value, ← RadicalExtension.monomial_ofValuation v hne hP (hover t ht).2, he t ht,
    Monomial.value]
  ring

/-- A form whose radicands are free of perfect powers is zero if its value is, wherever the radicals
in it are radicals. -/
theorem eq_zero_of_extensions (hP : ClosedRadicals P) (hsorted : f.Sorted)
    (hover : f.Over fun m => m.PowerFree ∧ m.Tame P)
    (h : ∀ (R : Type) [CommRing R] [Algebra ℂ R] (E : RadicalExtension ℂ R), E.radicals = P →
      E.Lawful → E.value f = 0) : f = zero := by
  by_contra hne
  obtain ⟨t₀, ht₀⟩ := List.exists_mem_of_ne_nil f.terms fun hnil =>
    hne (by cases f; cases hnil; rfl)
  -- the terms with the same exponents of radicals as one of them
  let e := exponents t₀.1.factors
  have hgroup : ∀ t ∈ (f.withExponents e).terms, t ∈ f.terms ∧ exponents t.1.factors = e :=
    fun t ht => by simpa [withExponents] using ht
  have hpart : (f.withExponents e).Over fun m => m.PowerFree ∧ m.Tame P :=
    fun t ht => hover t (hgroup t ht).1
  have hzero : f.withExponents e = zero := by
    refine eq_zero_of_value_twist (v := freeValuation) (hsorted.filter _)
      (hpart.imp fun m hm => ⟨hm.1, Monomial.factorsValue_ne_zero fun x hx => ?_⟩) fun t => ?_
    · have htame := hm.2 x hx
      obtain ⟨a, k⟩ := x
      cases a with
      | root q n => exact freeValuation.root_ne_zero htame.1 htame.2
      | _ => exact freeValuation_ne_zero _ (by simp)
    · obtain ⟨R, _, _, E, hscalar, rfl, hlaw, hfree⟩ :=
        RadicalExtension.exists_free hP (freeValuation.twist t) (freeValuation_twist_ne_zero t)
      have hcoordinate := hfree.value_withExponents hlaw.pos
        (hover.imp fun _ hm => ⟨hm.1.arranged, hm.2⟩) (h R E rfl hlaw) e
      rw [hscalar] at hcoordinate
      rw [value_eq_monomial_mul _ (freeValuation_twist_ne_zero t) hlaw.nodup
        (hpart.imp fun _ hm => hm.2) fun t ht => (hgroup t ht).2, hcoordinate, mul_zero]
  have hmem : t₀ ∈ (f.withExponents e).terms := by simpa [withExponents] using ⟨ht₀, rfl⟩
  rw [hzero] at hmem
  cases hmem

/-- **Forms are known by their values in extensions**, as long as their radicands are free of
perfect powers. -/
theorem eq_of_extensions (hP : ClosedRadicals P) (hf : f.Sorted) (hg : g.Sorted)
    (hf' : f.Over fun m => m.PowerFree ∧ m.Tame P) (hg' : g.Over fun m => m.PowerFree ∧ m.Tame P)
    (h : ∀ (R : Type) [CommRing R] [Algebra ℂ R] (E : RadicalExtension ℂ R), E.radicals = P →
      E.Lawful → E.value f = E.value g) : f = g :=
  eq_of_sub_eq_zero (eq_zero_of_extensions hP (hf.sub hg) (hf'.sub hg') fun R _ _ E hE hlaw => by
    rw [E.value_sub, h R E hE hlaw, sub_self])

end Form

end Resolvent

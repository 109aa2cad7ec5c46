import Resolvent.Proofs.Form.Monomials
import Resolvent.Proofs.Form.Surds
import Resolvent.Proofs.Form.Tower

/-!
# Powers and repeated products

A power of a single term multiplies its exponents, another power squares and multiplies, and neither
meets the products that multiplying the copies one after another meets.  The results are still the
same form (`Form.pow?_eq_repeated`): both have the power of the value in all extensions by the
radicals, and forms are known by these values as long as nothing could be extracted from a radicand.
For radicands that are made of the primes that are tried, this only asks that they fit 128 bits
(`Form.IsNormal.over_powerFree`).

That is a real condition.  Extraction gives up beyond 128 bits, exponents beyond 32 bits are cut
off, and powers of a sum in a reciprocal are multiplied out one way and not the other
(`Form.pow?_ne_repeated`).
-/

namespace Resolvent

open PerfectPower (trialLimit)

/-! ### Smooth radicands -/

/-- A root has a whole radicand whose primes are all tried by trial division. -/
def Atom.IsSmooth : Atom → Prop
  | .root q n => 2 ≤ n ∧ ∃ u ∈ Nat.smoothNumbers trialLimit, q = (u : Rat)
  | _ => True

/-- A root has a radicand that is small enough for extraction. -/
def Atom.RadicandFits : Atom → Prop
  | .root q _ => Width.isInt128 q.num = true
  | _ => True

instance : DecidablePred Atom.RadicandFits
  | .root _ _ => inferInstanceAs (Decidable (_ = true))
  | .symbol _ | .pi | .e | .imaginaryUnit | .radical _ _ | .apply _ _ | .power _ _
  | .reciprocal _ => isTrue trivial

namespace Form

theorem exists_restProduct_smooth {n : Nat} (hn : 0 < n) {radicands : List (Rat × Int)}
    (h : ∀ x ∈ radicands, ∃ u ∈ Nat.smoothNumbers trialLimit, x.1 = (u : Rat)) :
    ∃ r ∈ Nat.smoothNumbers trialLimit, restProduct n radicands = (r : Rat) := by
  induction radicands with
  | nil => exact ⟨1, Nat.mem_smoothNumbers_of_lt one_pos (by decide), by simp [restProduct]⟩
  | cons x radicands ih =>
    obtain ⟨q, k⟩ := x
    obtain ⟨u, hu, rfl⟩ := h _ List.mem_cons_self
    obtain ⟨r, hr, hrest⟩ := ih fun y hy => h y (List.mem_cons_of_mem _ hy)
    obtain ⟨j, hj⟩ := exists_restPower_eq hn ((u : Rat), k)
    have hpow : u ^ j ∈ Nat.smoothNumbers trialLimit := Nat.mem_smoothNumbers'.2 fun p hp hdvd =>
      Nat.mem_smoothNumbers'.1 hu p hp (hp.dvd_of_dvd_pow hdvd)
    exact ⟨u ^ j * r, Nat.mul_mem_smoothNumbers hpow hr, by
      rw [restProduct_cons, hj, hrest, Nat.cast_mul, Nat.cast_pow]⟩

/-- Roots of smooth numbers with one index make a root of a smooth number. -/
theorem settles_isSmooth : Atom.Settles Atom.IsSmooth where
  reciprocal _ := trivial
  rootShare := by
    intro factors n hn h y hy
    obtain ⟨q, k, hq⟩ := mem_rootIndices.1 hn
    have hindex : 2 ≤ n := (show _ ∧ _ from h _ hq).1
    obtain ⟨r, hr, hrest⟩ := exists_restProduct_smooth (n := n) (by omega)
      fun x hx => (show _ ∧ _ from h _ (mem_radicandsOf.1 hx)).2
    obtain ⟨u, hu, hdvd⟩ := PerfectPower.exists_extract_eq (Nat.pos_of_ne_zero hr.1) n
    rw [(eq_of_mem_kept_rootShare hy).1, hrest]
    exact ⟨hindex, u, Nat.mem_smoothNumbers_of_dvd hr hdvd, hu⟩

/-- Smooth radicands of normal forms are free of perfect powers if they fit 128 bits. -/
theorem IsNormal.over_powerFree {f : Form} (hf : f.IsNormal) (hsmooth : f.Everywhere Atom.IsSmooth)
    (hfits : ∀ t ∈ f.terms, ∀ x ∈ t.1.factors, x.1.RadicandFits) :
    f.Over Monomial.PowerFree := by
  intro t ht
  obtain ⟨hne, hnormal⟩ := hf.over le_rfl t ht
  refine ⟨hne, hnormal.arranged, fun {q n k} hx => ?_⟩
  obtain ⟨hn, u, hu, rfl⟩ : _ ∧ _ := hsmooth _ (.factor ht hx)
  have hbits : Width.isInt128 (u : Rat).num = true := hfits t ht _ hx
  rw [Rat.num_natCast, Width.isInt128_iff] at hbits
  cases hnormal.atoms _ hx with
  | root hq hone _ _ hextract =>
    have hpos : 0 < u := by exact_mod_cast hq
    have hone : u ≠ 1 := by exact_mod_cast hone
    refine ⟨hn, u, rfl, by omega, fun p hp hdvd => ?_⟩
    refine PerfectPower.not_pow_dvd_of_extract_eq (by omega) (by omega) hn hextract hp ?_ hdvd
    exact Nat.mem_smoothNumbers'.1 hu p hp ((dvd_pow_self p (by omega)).trans hdvd)

/-! ### Repeated products -/

/-- The product of copies of a form, one after the other, starting from one. -/
def repeated (f : Form) : Nat → Form
  | 0 => one
  | k + 1 => (f.repeated k).mul f

/-- Where the products of atoms have exponents that fit 32 bits and no sum in a reciprocal is
multiplied out, both when a power is computed and when the copies are multiplied. -/
structure TractablePower (f : Form) (k : Nat) : Prop where
  /-- The products that the power meets. -/
  power : PowWithin (NormalizeWithin Tractable (unfoldings f.depth))
    (normalize (unfoldings f.depth)) f k
  /-- The products that each copy meets. -/
  copies : ∀ j < k, MulWithin
    (NormalizeWithin Tractable (unfoldings ((f.repeated j).depth + f.depth))) (f.repeated j) f

instance (f : Form) (k : Nat) : Decidable (f.TractablePower k) :=
  decidable_of_iff (_ ∧ _) ⟨fun h => ⟨h.1, h.2⟩, fun h => ⟨h.power, h.copies⟩⟩

variable {f p : Form} {k : Nat}

theorem IsNormal.repeated (hf : f.IsNormal) (k : Nat) : (f.repeated k).IsNormal := by
  induction k with
  | zero => exact isNormal_ofRat 1
  | succ k ih => exact ih.mul hf

theorem Everywhere.repeated {A : Atom → Prop} (hA : Atom.Settles A) (hf : f.Everywhere A)
    (k : Nat) : (f.repeated k).Everywhere A := by
  have hclosed := closed_everywhere hA
  refine everywhere_iff.2 ?_
  induction k with
  | zero => exact monomialsIn_ofRat hclosed.one 1
  | succ k ih => exact ih.mul hclosed (everywhere_iff.1 hf)

section Value

variable {K R : Type*} [Field K] [CharZero K] [CommRing R] [Algebra K R] {E : RadicalExtension K R}

/-- The product of copies has the power of the value. -/
theorem value_repeated (hlaw : E.Lawful) (hf : f.Over (Monomial.Tame E.radicals))
    (h : ∀ j < k, MulWithin
      (NormalizeWithin Tractable (unfoldings ((f.repeated j).depth + f.depth))) (f.repeated j) f) :
    (f.repeated k).Over (Monomial.Tame E.radicals) ∧ E.value (f.repeated k) = E.value f ^ k := by
  induction k with
  | zero => exact ⟨tame_one _, by rw [repeated, E.value_one, pow_zero]⟩
  | succ k ih =>
    obtain ⟨htame, hvalue⟩ := ih fun j hj => h j (by omega)
    obtain ⟨hproduct, hmul⟩ := (RadicalExtension.soundOn_normalize hlaw _).mulSound htame hf
      (h k (by omega))
    exact ⟨hproduct, by rw [repeated, mul, hmul, hvalue, pow_succ]⟩

end Value

/-- A power is a repeated product if nothing is left in the radicands of the results that could be
extracted. -/
theorem pow?_eq_repeated_of_powerFree (hf : f.IsNormal) (hk : k ≤ maxExpandedPower)
    (h : f.TractablePower k)
    (hpower : ∀ p, f.pow? k = some p → p.Over Monomial.PowerFree)
    (hrepeated : (f.repeated k).Over Monomial.PowerFree) : f.pow? k = some (f.repeated k) := by
  obtain ⟨p, hp⟩ : ∃ p, f.pow? k = some p :=
    ⟨_, powWith_of_nonneg _ _ (Int.natCast_nonneg k) (Int.ofNat_le.2 hk)⟩
  rw [hp, Option.some.injEq]
  obtain ⟨P, hP, -, htame⟩ := ClosedRadicals.nil.exists_over_tame hf
  -- both sides have the same value in each extension
  have hvalues : ∀ (R : Type) [CommRing R] [Algebra ℂ R] (E : RadicalExtension ℂ R),
      E.radicals = P → E.Lawful → p.Over (Monomial.Tame P) ∧ (f.repeated k).Over (Monomial.Tame P) ∧
        E.value p = E.value (f.repeated k) := by
    rintro R _ _ E rfl hlaw
    obtain ⟨htamePower, hvalue⟩ := (RadicalExtension.soundOn_normalize hlaw _).powWith htame
      (Int.natCast_nonneg k) h.power hp
    obtain ⟨htameRepeated, hvalue'⟩ := value_repeated hlaw htame h.copies
    exact ⟨htamePower, htameRepeated, by rw [hvalue, hvalue', Int.toNat_natCast]⟩
  obtain ⟨R, _, _, E, -, hE, hlaw, -⟩ :=
    RadicalExtension.exists_free hP freeValuation freeValuation_ne_zero
  obtain ⟨htamePower, htameRepeated, -⟩ := hvalues R E hE hlaw
  exact eq_of_extensions hP (hf.pow hp).sorted (hf.repeated k).sorted
    ((hpower p hp).and htamePower) (hrepeated.and htameRepeated)
    fun R _ _ E hE hlaw => (hvalues R E hE hlaw).2.2

/-- **Powers are repeated products** where exponents fit and no sum in a reciprocal is multiplied
out, as long as nothing is left in the radicands of the results that could be extracted.  That is so
if radicands are whole numbers made of the primes that are tried, and those of the results fit 128
bits. -/
theorem pow?_eq_repeated (hf : f.IsNormal) (hk : k ≤ maxExpandedPower) (h : f.TractablePower k) :
    ((∀ p, f.pow? k = some p → p.Over Monomial.PowerFree) →
      (f.repeated k).Over Monomial.PowerFree → f.pow? k = some (f.repeated k)) ∧
    (f.Everywhere Atom.IsSmooth →
      (∀ p, f.pow? k = some p → ∀ t ∈ p.terms, ∀ x ∈ t.1.factors, x.1.RadicandFits) →
      (∀ t ∈ (f.repeated k).terms, ∀ x ∈ t.1.factors, x.1.RadicandFits) →
      f.pow? k = some (f.repeated k)) := by
  refine ⟨pow?_eq_repeated_of_powerFree hf hk h, fun hsmooth hpower hrepeated => ?_⟩
  refine pow?_eq_repeated_of_powerFree hf hk h (fun p hp => ?_) ?_
  · have hpow := (everywhere_iff.1 hsmooth).pow (closed_everywhere settles_isSmooth) hp
    exact (hf.pow hp).over_powerFree (everywhere_iff.2 hpow) (hpower p hp)
  · exact (hf.repeated k).over_powerFree (hsmooth.repeated settles_isSmooth k) hrepeated

/-! ### A nested sum -/

/-- The sum of the imaginary unit and of the cube root of two times a nested root. -/
def nestedSum : Form :=
  add imaginaryUnit (mul (ofAtom (.root 2 3))
    (ofAtom (.radical (add one (ofAtom (.radical (symbol 0) 2))) 2)))

theorem isNormal_nestedSum : nestedSum.IsNormal := by
  have hinner : (ofAtom (.radical (symbol 0) 2)).IsNormal :=
    isNormal_ofAtom (.radical (isNormal_ofAtom (.symbol 0)) (by decide +kernel) le_rfl (by decide))
  have hradical : (ofAtom (.radical (add one (ofAtom (.radical (symbol 0) 2))) 2)).IsNormal :=
    isNormal_ofAtom (.radical ((isNormal_ofRat 1).add hinner) (by decide +kernel) le_rfl
      (by decide))
  have hroot : (ofAtom (.root 2 3)).IsNormal := isNormal_ofAtom ⟨by decide, by decide, by decide⟩
  exact (isNormal_ofAtom Atom.IsNormal.imaginaryUnit.proper).add (hroot.mul hradical)

theorem everywhere_nestedSum : nestedSum.Everywhere Atom.IsSmooth := by
  have hclosed := closed_everywhere settles_isSmooth
  have hroot : (Atom.root 2 3).Everywhere Atom.IsSmooth :=
    ⟨⟨by decide, 2, Nat.mem_smoothNumbers_of_lt two_pos (by decide), by norm_num⟩, nofun⟩
  have hsymbol : (symbol 0).Everywhere Atom.IsSmooth :=
    everywhere_iff.2 (monomialsIn_ofAtom hclosed ⟨trivial, nofun⟩)
  have hinner : (add one (ofAtom (.radical (symbol 0) 2))).Everywhere Atom.IsSmooth :=
    everywhere_iff.2 ((monomialsIn_ofRat hclosed.one 1).add
      (monomialsIn_ofAtom hclosed ⟨trivial, Atom.throughout_radical.2 hsymbol⟩))
  exact everywhere_iff.2 ((monomialsIn_ofAtom hclosed (a := .imaginaryUnit) ⟨trivial, nofun⟩).add
    ((monomialsIn_ofAtom hclosed hroot).mul hclosed
      (monomialsIn_ofAtom hclosed ⟨trivial, Atom.throughout_radical.2 hinner⟩)))

/-- The cube of a sum with a nested root is the product of three copies. -/
theorem cube_nestedSum :
    (nestedSum.IsNormal ∧ nestedSum.TractablePower 3 ∧ nestedSum.Everywhere Atom.IsSmooth ∧
      (∀ p, nestedSum.pow? 3 = some p →
        p.Over Monomial.PowerFree ∧ ∀ t ∈ p.terms, ∀ x ∈ t.1.factors, x.1.RadicandFits) ∧
      (nestedSum.repeated 3).Over Monomial.PowerFree ∧
      ∀ t ∈ (nestedSum.repeated 3).terms, ∀ x ∈ t.1.factors, x.1.RadicandFits) ∧
    nestedSum.pow? 3 = some (nestedSum.repeated 3) := by
  have htractable : nestedSum.TractablePower 3 := by decide +kernel
  have hpower : ∀ p ∈ nestedSum.pow? 3, ∀ t ∈ p.terms, ∀ x ∈ t.1.factors,
      x.1.RadicandFits := by decide +kernel
  have hrepeated : ∀ t ∈ (nestedSum.repeated 3).terms, ∀ x ∈ t.1.factors,
      x.1.RadicandFits := by decide +kernel
  have heq := (pow?_eq_repeated isNormal_nestedSum (by decide) htractable).2 everywhere_nestedSum
    hpower hrepeated
  have hfree : (nestedSum.repeated 3).Over Monomial.PowerFree :=
    (isNormal_nestedSum.repeated 3).over_powerFree
      (everywhere_nestedSum.repeated settles_isSmooth 3) hrepeated
  refine ⟨⟨isNormal_nestedSum, htractable, everywhere_nestedSum, fun p hp => ⟨?_, hpower p hp⟩,
    hfree, hrepeated⟩, heq⟩
  obtain rfl := Option.some.inj (heq.symm.trans hp)
  exact hfree

/-! ### Powers that are no repeated products -/

/-- A power of a single atom. -/
def powerOf (a : Atom) (k : Int) : Form := ⟨[(⟨[(a, k)]⟩, 1)]⟩

theorem isNormal_powerOf {a : Atom} {k : Int} (ha : a.IsNormal)
    (hk : Monomial.ExponentFits (a, k)) : (powerOf a k).IsNormal := by
  refine isNormal_of_over (d := a.depth) (List.pairwise_singleton _ _) fun t ht => ?_
  obtain rfl := List.mem_singleton.1 ht
  exact ⟨one_ne_zero, Monomial.arranged_singleton hk, List.forall_mem_singleton.2 ha,
    List.forall_mem_singleton.2 le_rfl⟩

/-- The cube root of the product of the primes up to 41, whose cube exceeds 128 bits. -/
def largeRoot : Form := powerOf (.root 304250263527210 3) 1

/-- Powers of `1 / (1 + x)` whose products have small exponents. -/
def reciprocalPowers : Form :=
  add (powerOf (.reciprocal (add one (symbol 0))) (-40))
    (powerOf (.reciprocal (add one (symbol 0))) 39)

/-- Powers of a symbol whose products have exponents that do not fit. -/
def symbolPowers : Form := add (powerOf (.symbol 0) (-1)) (powerOf (.symbol 0) 2147483647)

/-- **Each condition is needed**: extraction gives up on a large radicand, the sum in a reciprocal
is multiplied out one way only, and exponents are cut off at another place. -/
theorem pow?_ne_repeated :
    (largeRoot.IsNormal ∧ largeRoot.pow? 3 ≠ some (largeRoot.repeated 3)) ∧
    (reciprocalPowers.IsNormal ∧
      reciprocalPowers.pow? 4 ≠ some (reciprocalPowers.repeated 4)) ∧
    (symbolPowers.IsNormal ∧ symbolPowers.pow? 4 ≠ some (symbolPowers.repeated 4)) := by
  have hsum : (add one (symbol 0)).IsNormal := (isNormal_ofRat 1).add (isNormal_ofAtom (.symbol 0))
  have hreciprocal : (Atom.reciprocal (add one (symbol 0))).IsNormal :=
    .reciprocal hsum (by decide +kernel) (by decide +kernel)
  refine ⟨⟨isNormal_powerOf ?_ rfl, by decide +kernel⟩,
    ⟨(isNormal_powerOf hreciprocal ?_).add (isNormal_powerOf hreciprocal ?_), by decide +kernel⟩,
    ⟨(isNormal_powerOf (.symbol 0) ?_).add (isNormal_powerOf (.symbol 0) ?_), by decide +kernel⟩⟩
  · exact .root (by decide) (by decide) (by decide) (by decide) (by decide +kernel)
  all_goals
    simp [Monomial.ExponentFits]

end Form

end Resolvent
